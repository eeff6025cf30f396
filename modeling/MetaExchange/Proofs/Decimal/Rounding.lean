import Mathlib.Algebra.Order.Ring.Nat
import MetaExchange.Decimal.Binary64

namespace MetaExchange

namespace Decimal

variable {numerator denominator bound : Nat}

/-- A rounded quotient is a whole number nearest to it. -/
theorem roundHalfEven_within (positive : 0 < denominator) :
    2 * (roundHalfEven numerator denominator * denominator) ≤ 2 * numerator + denominator ∧
      2 * numerator ≤ 2 * (roundHalfEven numerator denominator * denominator) + denominator := by
  have parts := Nat.div_add_mod' numerator denominator
  have small := Nat.mod_lt numerator positive
  unfold roundHalfEven
  dsimp only
  split
  · omega
  · split
    · rw [Nat.add_one_mul (numerator / denominator)]
      omega
    · rcases Nat.mod_two_eq_zero_or_one (numerator / denominator) with even | odd
      · rw [even, Nat.add_zero]
        omega
      · rw [odd, Nat.add_one_mul (numerator / denominator)]
        omega

theorem roundHalfEven_even_of_tie (positive : 0 < denominator)
    (tie : 2 * numerator = 2 * (roundHalfEven numerator denominator * denominator) + denominator) :
    roundHalfEven numerator denominator % 2 = 0 := by
  have parts := Nat.div_add_mod' numerator denominator
  have small := Nat.mod_lt numerator positive
  unfold roundHalfEven at tie ⊢
  dsimp only at tie ⊢
  split at tie
  · omega
  · split at tie
    · rw [Nat.add_one_mul (numerator / denominator)] at tie
      omega
    · next notBelow notAbove =>
        rw [if_neg notBelow, if_neg notAbove]
        omega

/-- An even number is reached from half of one below it. -/
theorem le_roundHalfEven_iff (positive : 0 < denominator) (even : bound % 2 = 0) :
    bound ≤ roundHalfEven numerator denominator ↔
      2 * (bound * denominator) ≤ 2 * numerator + denominator := by
  obtain ⟨lower, upper⟩ := @roundHalfEven_within numerator _ positive
  constructor
  · intro reached
    have scaled := Nat.mul_le_mul_right denominator reached
    omega
  · intro near
    by_contra short
    have next : roundHalfEven numerator denominator + 1 ≤ bound := by omega
    have scaled := Nat.mul_le_mul_right denominator next
    rw [Nat.add_one_mul] at scaled
    have tie : 2 * numerator = 2 * (roundHalfEven numerator denominator * denominator) + denominator := by
      omega
    have halfway := roundHalfEven_even_of_tie positive tie
    -- An odd number lies between the two, so that the quotient would be further away than half of one.
    have further : roundHalfEven numerator denominator + 2 ≤ bound := by omega
    have scaled := Nat.mul_le_mul_right denominator further
    rw [Nat.add_mul] at scaled
    omega

@[simp]
theorem roundHalfEven_one (value : Nat) : roundHalfEven value 1 = value := by
  obtain ⟨lower, upper⟩ := @roundHalfEven_within value _ Nat.one_pos
  omega

end Decimal

namespace Binary64

open Decimal

variable {value bound : Nat}

theorem nearestWhole_of_lt (small : value < 2 ^ 53) : nearestWhole value = value := by
  have bits : value.log2 - 52 = 0 := by
    by_cases zero : value = 0
    · rw [zero]
      rfl
    · have few := (Nat.log2_lt zero).mpr small
      omega
  simp [nearestWhole, bits]

theorem le_nearestWhole (large : 2 ^ 52 ≤ value) : 2 ^ 52 ≤ nearestWhole value := by
  have nonzero : value ≠ 0 := by omega
  have bits : 52 ≤ value.log2 := (Nat.le_log2 nonzero).mpr large
  have positive : 0 < 1 <<< (value.log2 - 52) := by
    rw [Nat.one_shiftLeft]
    exact Nat.two_pow_pos _
  have scaled : 2 ^ 52 * (1 <<< (value.log2 - 52)) ≤ value := by
    rw [Nat.one_shiftLeft, ← Nat.pow_add, Nat.add_sub_cancel' bits]
    exact Nat.log2_self_le nonzero
  have rounded : 2 ^ 52 ≤ roundHalfEven value (1 <<< (value.log2 - 52)) := by
    rw [le_roundHalfEven_iff positive (by decide)]
    omega
  exact Nat.le_trans rounded (Nat.le_mul_of_pos_right _ positive)

theorem nearestWhole_eq_of_lt (small : nearestWhole value < 2 ^ 52) : nearestWhole value = value := by
  apply nearestWhole_of_lt
  by_contra large
  have rounded : 2 ^ 52 ≤ nearestWhole value := le_nearestWhole (by omega)
  omega

theorem le_of_le_nearestWhole (small : bound ≤ 2 ^ 52) (reached : bound ≤ nearestWhole value) :
    bound ≤ value := by
  by_contra short
  rw [nearestWhole_of_lt (by omega)] at reached
  exact short reached

end Binary64

end MetaExchange
