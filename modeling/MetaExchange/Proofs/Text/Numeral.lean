import Mathlib.Algebra.Group.Nat.Defs
import MetaExchange.Text.Numeral

namespace MetaExchange.Numeral

variable {limit value digit : Nat} {code : UInt8} {front back digits : Bytes}

theorem digit?_eq_some_iff :
    digit? code = some digit ↔ 48 ≤ code.toNat ∧ code.toNat ≤ 57 ∧ digit = code.toNat - 48 := by
  unfold digit?
  split
  · next within =>
      have bounds : 48 ≤ code.toNat ∧ code.toNat ≤ 57 := within
      simp only [Option.some.injEq, bounds, true_and]
      exact eq_comm
  · next outside =>
      have bounds : ¬ (48 ≤ code.toNat ∧ code.toNat ≤ 57) := outside
      simp only [reduceCtorEq, false_iff]
      omega

theorem digit?_ofNat (small : digit < 10) : digit? (UInt8.ofNat (48 + digit)) = some digit := by
  rw [digit?_eq_some_iff, UInt8.toNat_ofNat']
  omega

theorem extend_append :
    extend limit value (front ++ back) =
      (extend limit value front).bind fun reached => extend limit reached back := by
  induction front generalizing value with
  | nil => simp [extend]
  | cons code front ih =>
      simp only [List.cons_append, extend]
      cases digit? code with
      | none => rfl
      | some digit =>
          dsimp only
          split
          · exact ih
          · rfl

theorem extend_singleton (known : digit? code = some digit) (within : value * 10 + digit ≤ limit) :
    extend limit value [code] = some (value * 10 + digit) := by
  simp [extend, known, within]

theorem ofNat_of_lt (small : value < 10) : ofNat value = [UInt8.ofNat (48 + value)] := by
  unfold ofNat
  rw [if_pos small]
  rfl

theorem ofNat_of_le (large : 10 ≤ value) :
    ofNat value = ofNat (value / 10) ++ [UInt8.ofNat (48 + value % 10)] := by
  conv => lhs; unfold ofNat
  rw [if_neg (by omega)]
  rfl

theorem isSome_digit?_of_mem_ofNat (member : code ∈ ofNat value) : (digit? code).isSome = true := by
  induction value using ofNat.induct with
  | case1 value small =>
      rw [ofNat_of_lt small] at member
      rw [List.mem_singleton.mp member, digit?_ofNat small]
      rfl
  | case2 value large ih =>
      rw [ofNat_of_le (by omega)] at member
      rcases List.mem_append.mp member with higher | last
      · exact ih higher
      · rw [List.mem_singleton.mp last, digit?_ofNat (by omega)]
        rfl

theorem ofNat_ne_nil (value : Nat) : ofNat value ≠ [] := by
  unfold ofNat
  split <;> simp

theorem extend_ofNat (within : value ≤ limit) : extend limit 0 (ofNat value) = some value := by
  induction value using ofNat.induct with
  | case1 value small =>
      rw [ofNat_of_lt small, extend_singleton (digit?_ofNat small) (by omega)]
      simp
  | case2 value large ih =>
      have last : value % 10 < 10 := by omega
      rw [ofNat_of_le (by omega), extend_append, ih (by omega), Option.bind_some,
        extend_singleton (digit?_ofNat last) (by omega)]
      simp only [Option.some.injEq]
      omega

theorem natural?_ofNat (within : value ≤ limit) : natural? limit (ofNat value) = some value := by
  unfold natural?
  split
  · next none => exact absurd none (ofNat_ne_nil value)
  · exact extend_ofNat within

/-- A numeral starts with a digit, and thus without a sign. -/
theorem exists_ofNat_eq_cons (value : Nat) :
    ∃ code digits, ofNat value = code :: digits ∧ (digit? code).isSome = true := by
  obtain ⟨code, digits, parts⟩ := List.exists_cons_of_ne_nil (ofNat_ne_nil value)
  have member : code ∈ ofNat value := by simp [parts]
  exact ⟨code, digits, parts, isSome_digit?_of_mem_ofNat member⟩

theorem ne_of_digit? (isDigit : (digit? code).isSome = true) {other : UInt8}
    (noDigit : digit? other = none) : code ≠ other := by
  intro same
  subst same
  rw [noDigit] at isDigit
  cases isDigit

theorem unsigned?_ofNat (within : value ≤ limit) : unsigned? limit (ofNat value) = some value := by
  obtain ⟨code, digits, parts, isDigit⟩ := exists_ofNat_eq_cons value
  have unsigned : code ≠ '+'.toUInt8 := ne_of_digit? isDigit (by decide)
  rw [parts]
  unfold unsigned?
  dsimp only
  rw [if_neg unsigned, ← parts, natural?_ofNat within]

theorem int64?_ofInt (value : Int64) : int64? (ofInt value.toInt) = some value := by
  have lower := value.le_toInt
  have upper := value.toInt_lt
  unfold ofInt
  split
  · next negative =>
      have within : value.toInt.natAbs ≤ UInt64.size / 2 := by
        rw [show UInt64.size / 2 = 2 ^ 63 from rfl]
        omega
      have same : -(value.toInt.natAbs : Int) = value.toInt := by omega
      generalize value.toInt.natAbs = magnitude at within same ⊢
      simp [int64?, natural?_ofNat within, same, -Int64.ofInt_neg]
  · next nonnegative =>
      have within : value.toInt.natAbs ≤ UInt64.size / 2 - 1 := by
        rw [show UInt64.size / 2 - 1 = 2 ^ 63 - 1 from rfl]
        omega
      have same : (value.toInt.natAbs : Int) = value.toInt := by omega
      generalize value.toInt.natAbs = magnitude at within same ⊢
      obtain ⟨code, digits, parts, isDigit⟩ := exists_ofNat_eq_cons magnitude
      have unsigned : code ≠ '-'.toUInt8 := ne_of_digit? isDigit (by decide)
      rw [parts]
      unfold int64?
      dsimp only
      rw [if_neg unsigned, ← parts, unsigned?_ofNat within]
      simp [same]

theorem length_ofNat_le {places : Nat} (few : value < 10 ^ (places + 1)) :
    (ofNat value).length ≤ places + 1 := by
  induction value using ofNat.induct generalizing places with
  | case1 value small =>
      rw [ofNat_of_lt small]
      simp
  | case2 value large ih =>
      obtain ⟨higher, rfl⟩ : ∃ higher, places = higher + 1 := by
        cases places with
        | zero => omega
        | succ higher => exact ⟨higher, rfl⟩
      have fewer : value / 10 < 10 ^ (higher + 1) := by
        rw [Nat.div_lt_iff_lt_mul (by decide), ← Nat.pow_succ]
        exact few
      have length := ih fewer
      rw [ofNat_of_le (by omega), List.length_append, List.length_singleton]
      omega

theorem length_ofInt_le (value : Int64) : (ofInt value.toInt).length ≤ 20 := by
  have lower := value.le_toInt
  have upper := value.toInt_lt
  have digits : (ofNat value.toInt.natAbs).length ≤ 18 + 1 := length_ofNat_le (by omega)
  unfold ofInt
  split
  · rw [List.length_cons]
    omega
  · omega

end MetaExchange.Numeral
