/-!
Byte strings, and byte strings of a fixed size.

A byte string is a list, so that every rule about the wire is a rule about `++`, `take` and `drop`.
The splitting functions run in constant stack and are pinned to those operations by the lemmas beside
them.
-/

namespace MetaExchange

abbrev Bytes := List UInt8

/-- A number as it fits a word of 64 bits. -/
def word? (value : Nat) : Option Nat := if value < UInt64.size then some value else none

theorem word?_eq {value : Nat} (fits : value < UInt64.size) : word? value = some value := if_pos fits

namespace Bytes

def ofString (text : String) : Bytes :=
  text.toList.flatMap String.utf8EncodeChar

def splitAt? (count : Nat) (bytes : Bytes) : Option (Bytes × Bytes) :=
  go count bytes []
where
  /-- Moves `count` bytes to `taken`, which holds them newest first. -/
  go : Nat → Bytes → Bytes → Option (Bytes × Bytes)
    | 0, rest, taken => some (taken.reverse, rest)
    | _ + 1, [], _ => none
    | count + 1, byte :: rest, taken => go count rest (byte :: taken)

theorem splitAt?_go (count : Nat) (bytes taken : Bytes) :
    splitAt?.go count bytes taken =
      if count ≤ bytes.length then
        some (taken.reverse ++ bytes.take count, bytes.drop count)
      else none := by
  induction count generalizing bytes taken with
  | zero => simp [splitAt?.go]
  | succ count ih =>
    cases bytes with
    | nil => simp [splitAt?.go]
    | cons byte rest => simp [splitAt?.go, ih]

theorem splitAt?_eq (count : Nat) (bytes : Bytes) :
    splitAt? count bytes =
      if count ≤ bytes.length then some (bytes.take count, bytes.drop count) else none := by
  simp [splitAt?, splitAt?_go]

theorem length_of_splitAt? {count : Nat} {bytes taken rest : Bytes}
    (split : splitAt? count bytes = some (taken, rest)) :
    taken.length = count ∧ rest.length + count = bytes.length := by
  rw [splitAt?_eq] at split
  split at split
  · cases split
    simp only [List.length_take, List.length_drop]
    omega
  · cases split

end Bytes

structure FixedBytes (size : Nat) where
  toBytes : Bytes
  length_toBytes : toBytes.length = size
  deriving DecidableEq

namespace FixedBytes

variable {size : Nat}

@[ext] theorem ext {a b : FixedBytes size} (same : a.toBytes = b.toBytes) : a = b := by
  cases a
  cases b
  cases same
  rfl

def ofBytes? (size : Nat) (bytes : Bytes) : Option (FixedBytes size) :=
  if fits : bytes.length = size then some ⟨bytes, fits⟩ else none

/-- The `size` bytes of `bytes` that follow the first `start`. -/
def slice (size start : Nat) (bytes : Bytes) (fits : start + size ≤ bytes.length) :
    FixedBytes size :=
  ⟨(bytes.drop start).take size, by simp only [List.length_take, List.length_drop]; omega⟩

end FixedBytes

/-- The SHA-1 hash that names an info dictionary. -/
abbrev InfoHash := FixedBytes 20

abbrev PeerId := FixedBytes 20

end MetaExchange
