import Mathlib.Algebra.Group.Int.Defs
import MetaExchange.Proofs.Text.Numeral

namespace MetaExchange.Numeral

def IsDigit (code : UInt8) : Prop := '0'.toUInt8 ≤ code ∧ code ≤ '9'.toUInt8

def IsDecimal (digits : Bytes) : Prop := digits ≠ [] ∧ ∀ code ∈ digits, IsDigit code

/-- The number that digits write behind those of another number. -/
def continued (value : Nat) (digits : Bytes) : Nat :=
  digits.foldl (fun value code => value * 10 + (code.toNat - '0'.toNat)) value

/-- The number that digits write, the most significant first. -/
def decimal (digits : Bytes) : Nat := continued 0 digits

inductive Sign where
  | absent
  | plus
  | minus

def Sign.text : Sign → Bytes
  | .absent => []
  | .plus => ['+'.toUInt8]
  | .minus => ['-'.toUInt8]

def Sign.apply : Sign → Nat → Int
  | .minus, magnitude => -(magnitude : Int)
  | _, magnitude => magnitude

/-- The largest number that fits 64 bits behind the sign. -/
def Sign.limit : Sign → Nat
  | .minus => 2 ^ 63
  | _ => 2 ^ 63 - 1

variable {limit value result : Nat} {code : UInt8} {digits text : Bytes}

theorem isSome_digit?_iff : (digit? code).isSome = true ↔ IsDigit code := by
  unfold digit? IsDigit
  split <;> simp [*]

theorem digit?_of_isDigit (isDigit : IsDigit code) : digit? code = some (code.toNat - '0'.toNat) :=
  if_pos isDigit

theorem IsDecimal.exists_eq_cons (isDecimal : IsDecimal digits) :
    ∃ code rest, digits = code :: rest ∧ IsDigit code := by
  obtain ⟨code, rest, rfl⟩ := List.exists_cons_of_ne_nil isDecimal.1
  exact ⟨code, rest, rfl, isDecimal.2 code (by simp)⟩

theorem IsDecimal.not_mem (isDecimal : IsDecimal digits) {other : UInt8}
    (noDigit : digit? other = none) : other ∉ digits := by
  intro member
  have isDigit := isSome_digit?_iff.mpr (isDecimal.2 other member)
  rw [noDigit] at isDigit
  cases isDigit

theorem le_continued (value : Nat) (digits : Bytes) : value ≤ continued value digits := by
  induction digits generalizing value with
  | nil => exact Nat.le_refl value
  | cons code rest ih =>
      have further := ih (value * 10 + (code.toNat - '0'.toNat))
      simp only [continued, List.foldl_cons] at further ⊢
      omega

/-- Numbers only grow as digits follow, so that it is enough to look at the limit in the end. -/
theorem extend_eq_some_iff (within : value ≤ limit) :
    extend limit value digits = some result ↔
      (∀ code ∈ digits, IsDigit code) ∧ continued value digits = result ∧ result ≤ limit := by
  induction digits generalizing value with
  | nil =>
      simp only [extend, continued, Option.some.injEq, List.not_mem_nil, false_implies, implies_true,
        List.foldl_nil, true_and]
      constructor
      · intro same
        exact ⟨same, same ▸ within⟩
      · intro given
        exact given.1
  | cons code rest ih =>
      by_cases isDigit : IsDigit code
      · have grown := le_continued (value * 10 + (code.toNat - '0'.toNat)) rest
        simp only [extend, digit?_of_isDigit isDigit, List.forall_mem_cons, isDigit, true_and]
        by_cases small : value * 10 + (code.toNat - '0'.toNat) ≤ limit
        · rw [if_pos small, ih small]
          rfl
        · rw [if_neg small]
          simp only [reduceCtorEq, false_iff, not_and]
          intro _ same
          simp only [continued, List.foldl_cons] at grown same
          omega
      · have none : digit? code = none := by
          rw [← Option.not_isSome_iff_eq_none, isSome_digit?_iff]
          exact isDigit
        simp [extend, none, isDigit]

theorem natural?_eq_some_iff :
    natural? limit digits = some value ↔ IsDecimal digits ∧ decimal digits = value ∧ value ≤ limit := by
  cases digits with
  | nil => simp [natural?, IsDecimal]
  | cons code rest =>
      simp only [natural?, extend_eq_some_iff (Nat.zero_le limit), IsDecimal, decimal, ne_eq,
        reduceCtorEq, not_false_eq_true, true_and]

/-- Behind a digit there is no sign, so that all of the text has to be digits. -/
theorem unsigned?_eq_some_iff (isDigit : IsDigit code) {rest : Bytes} :
    unsigned? limit (code :: rest) = some value ↔
      IsDecimal (code :: rest) ∧ decimal (code :: rest) = value ∧ value ≤ limit := by
  have unsigned : code ≠ '+'.toUInt8 :=
    ne_of_digit? (isSome_digit?_iff.mpr isDigit) (by decide)
  simp only [unsigned?, if_neg unsigned, natural?_eq_some_iff]

theorem Sign.le_limit_iff {sign : Sign} {magnitude : Nat} :
    magnitude ≤ sign.limit ↔ -2 ^ 63 ≤ sign.apply magnitude ∧ sign.apply magnitude < 2 ^ 63 := by
  cases sign <;> simp only [limit, apply] <;> omega

/-- A number of 64 bits behind a sign. -/
def signed? (sign : Sign) (digits : Bytes) : Option Int64 :=
  (natural? sign.limit digits).map fun magnitude => Int64.ofInt (sign.apply magnitude)

theorem signed?_eq_some_iff {sign : Sign} {number : Int64} :
    signed? sign digits = some number ↔
      IsDecimal digits ∧ number.toInt = sign.apply (decimal digits) := by
  simp only [signed?, Option.map_eq_some_iff, natural?_eq_some_iff]
  constructor
  · intro given
    obtain ⟨_, ⟨isDecimal, rfl, within⟩, rfl⟩ := given
    obtain ⟨lower, upper⟩ := Sign.le_limit_iff.mp within
    exact ⟨isDecimal, Int64.toInt_ofInt_of_le lower upper⟩
  · intro given
    obtain ⟨isDecimal, same⟩ := given
    have within : decimal digits ≤ sign.limit := by
      rw [Sign.le_limit_iff, ← same]
      exact ⟨number.le_toInt, number.toInt_lt⟩
    exact ⟨_, ⟨isDecimal, rfl, within⟩, by rw [← same, Int64.ofInt_toInt]⟩

theorem int64?_minus : int64? ('-'.toUInt8 :: digits) = signed? .minus digits := by
  simp only [int64?, ↓reduceIte, signed?, Sign.limit, Sign.apply]
  rw [show UInt64.size / 2 = 2 ^ 63 from rfl]
  cases natural? (2 ^ 63) digits <;> rfl

theorem int64?_of_ne {rest : Bytes} (nonnegative : code ≠ '-'.toUInt8) :
    int64? (code :: rest) =
      (unsigned? Sign.plus.limit (code :: rest)).map fun magnitude =>
        Int64.ofInt (Sign.plus.apply magnitude) := by
  simp only [int64?, if_neg nonnegative]
  rw [show UInt64.size / 2 - 1 = Sign.plus.limit from rfl]
  cases unsigned? Sign.plus.limit (code :: rest) <;> rfl

theorem int64?_plus : int64? ('+'.toUInt8 :: digits) = signed? .plus digits :=
  int64?_of_ne (show '+'.toUInt8 ≠ '-'.toUInt8 by decide)

theorem int64?_of_unsigned {rest : Bytes} (nonnegative : code ≠ '-'.toUInt8)
    (unsigned : code ≠ '+'.toUInt8) : int64? (code :: rest) = signed? .absent (code :: rest) := by
  rw [int64?_of_ne nonnegative]
  simp only [unsigned?, if_neg unsigned]
  rfl

theorem int64?_text (sign : Sign) (isDecimal : IsDecimal digits) :
    int64? (sign.text ++ digits) = signed? sign digits := by
  cases sign with
  | minus => exact int64?_minus
  | plus => exact int64?_plus
  | absent =>
      obtain ⟨code, rest, rfl, isDigit⟩ := isDecimal.exists_eq_cons
      have known := isSome_digit?_iff.mpr isDigit
      exact int64?_of_unsigned (ne_of_digit? known (by decide)) (ne_of_digit? known (by decide))

/-- A sign is the first byte of a text, if there is one. -/
theorem exists_sign_of_int64? {number : Int64} (known : int64? text = some number) :
    ∃ sign digits, text = Sign.text sign ++ digits ∧ signed? sign digits = some number := by
  cases text with
  | nil => cases known
  | cons code rest =>
      by_cases negative : code = '-'.toUInt8
      · subst negative
        exact ⟨.minus, rest, rfl, int64?_minus ▸ known⟩
      · by_cases positive : code = '+'.toUInt8
        · subst positive
          exact ⟨.plus, rest, rfl, int64?_plus ▸ known⟩
        · exact ⟨.absent, code :: rest, rfl, int64?_of_unsigned negative positive ▸ known⟩

theorem int64?_eq_some_iff {number : Int64} :
    int64? text = some number ↔
      ∃ sign digits, text = Sign.text sign ++ digits ∧ IsDecimal digits ∧
        number.toInt = sign.apply (decimal digits) := by
  constructor
  · intro known
    obtain ⟨sign, digits, parts, signed⟩ := exists_sign_of_int64? known
    exact ⟨sign, digits, parts, signed?_eq_some_iff.mp signed⟩
  · intro given
    obtain ⟨sign, digits, rfl, isDecimal, same⟩ := given
    rw [int64?_text sign isDecimal]
    exact signed?_eq_some_iff.mpr ⟨isDecimal, same⟩

end MetaExchange.Numeral
