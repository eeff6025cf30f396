import MetaExchange.Bytes.Basic

/-!
Reading UTF-8. A byte string is cut into units: each is a character, or the longest start of one that
cannot go on, which is read as one replacement character where any text will do.
-/

namespace MetaExchange.Utf8

/-- What the first byte of a longer character says: the range of the byte after it, how many bytes are
still to come, and the bits it gives. The ranges leave out overlong forms, surrogates, and what lies
above U+10FFFF. -/
structure Lead where
  low : UInt8
  high : UInt8
  owed : Nat
  bits : Nat

def lead? (byte : UInt8) : Option Lead :=
  if 0xc2 ≤ byte ∧ byte ≤ 0xdf then some ⟨0x80, 0xbf, 1, byte.toNat - 0xc0⟩
  else if byte = 0xe0 then some ⟨0xa0, 0xbf, 2, 0⟩
  else if byte = 0xed then some ⟨0x80, 0x9f, 2, 0xd⟩
  else if 0xe1 ≤ byte ∧ byte ≤ 0xef then some ⟨0x80, 0xbf, 2, byte.toNat - 0xe0⟩
  else if byte = 0xf0 then some ⟨0x90, 0xbf, 3, 0⟩
  else if 0xf1 ≤ byte ∧ byte ≤ 0xf3 then some ⟨0x80, 0xbf, 3, byte.toNat - 0xf0⟩
  else if byte = 0xf4 then some ⟨0x80, 0x8f, 3, 4⟩
  else none

/-- Reads the bytes a character still owes. The code point is missing where one of them is; that byte
is not taken. -/
def continuation : (owed : Nat) → (low high : UInt8) → (value : Nat) → Bytes → Option Nat × Bytes
  | 0, _, _, value, rest => (some value, rest)
  | _ + 1, _, _, _, [] => (none, [])
  | owed + 1, low, high, value, byte :: rest =>
    if low ≤ byte ∧ byte ≤ high then
      continuation owed 0x80 0xbf (value * 64 + (byte.toNat - 0x80)) rest
    else (none, byte :: rest)

theorem length_continuation_le (owed : Nat) (low high : UInt8) (value : Nat) (bytes : Bytes) :
    (continuation owed low high value bytes).2.length ≤ bytes.length := by
  induction owed generalizing low high value bytes with
  | zero => simp [continuation]
  | succ owed ih =>
    cases bytes with
    | nil => simp [continuation]
    | cons byte rest =>
      simp only [continuation]
      split
      · exact Nat.le_succ_of_le (ih ..)
      · simp

/-- The unit that starts with `byte`: a character, or nothing where no character can be read; and what
follows it. -/
def unit (byte : UInt8) (rest : Bytes) : Option Char × Bytes :=
  if byte < 0x80 then (some (Char.ofNat byte.toNat), rest)
  else
    match lead? byte with
    | none => (none, rest)
    | some lead =>
      let (code, rest) := continuation lead.owed lead.low lead.high lead.bits rest
      (code.map Char.ofNat, rest)

theorem length_unit_le (byte : UInt8) (rest : Bytes) :
    (unit byte rest).2.length ≤ rest.length := by
  unfold unit
  split
  · simp
  · split
    · simp
    · exact length_continuation_le ..

def units (bytes : Bytes) : List (Option Char) :=
  go bytes []
where
  go (bytes : Bytes) (found : List (Option Char)) : List (Option Char) :=
    match bytes with
    | [] => found.reverse
    | byte :: rest => go (unit byte rest).2 ((unit byte rest).1 :: found)
  termination_by bytes.length
  decreasing_by exact Nat.lt_succ_of_le (length_unit_le ..)

theorem units_go (bytes : Bytes) (found : List (Option Char)) :
    units.go bytes found = found.reverse ++ units bytes := by
  unfold units
  induction length : bytes.length using Nat.strongRecOn generalizing bytes found with
  | ind size ih =>
    cases bytes with
    | nil => simp [units.go]
    | cons byte rest =>
      have shorter : (unit byte rest).2.length < size := by
        have := length_unit_le byte rest
        simp only [List.length_cons] at length
        omega
      simp only [units.go]
      rw [ih _ shorter _ _ rfl, ih _ shorter _ [(unit byte rest).1] rfl]
      simp

@[simp] theorem units_nil : units [] = [] := by simp [units, units.go]

theorem units_cons (byte : UInt8) (rest : Bytes) :
    units (byte :: rest) = (unit byte rest).1 :: units (unit byte rest).2 := by
  rw [units, units.go, units_go]
  rfl

def lossy (bytes : Bytes) : String :=
  String.ofList ((units bytes).map fun unit => unit.getD (Char.ofNat 0xfffd))

def decode? (bytes : Bytes) : Option String :=
  ((units bytes).mapM id).map String.ofList

end MetaExchange.Utf8
