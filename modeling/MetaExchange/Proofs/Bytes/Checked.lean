import MetaExchange.Bytes.Basic

/-!
Sums and ranges with their limits checked: nothing where a number leaves 64 bits, or where a range reaches
past the end of the bytes.
-/

namespace MetaExchange

theorem filter_word?_eq {value bound : Nat} (fits : bound < UInt64.size) :
    (word? value).filter (· ≤ bound) = if value ≤ bound then some value else none := by
  unfold word?
  split
  · by_cases within : value ≤ bound <;> simp [Option.filter, within]
  · rw [if_neg (by omega)]
    rfl

/-- The bytes from one place up to another, where both are inside. -/
def Bytes.range? (start stop : Nat) (bytes : Bytes) : Option Bytes :=
  if start ≤ stop ∧ stop ≤ bytes.length then some ((bytes.drop start).take (stop - start)) else none

theorem Bytes.range?_eq {start stop : Nat} {bytes : Bytes} (ordered : start ≤ stop)
    (inside : stop ≤ bytes.length) :
    bytes.range? start stop = some ((bytes.drop start).take (stop - start)) :=
  if_pos ⟨ordered, inside⟩

end MetaExchange
