import Mathlib.Data.List.Basic
import MetaExchange.Proofs.Decimal.Rounding
import MetaExchange.Report

/-!
How sizes are shown: as hundredths of a unit, which can be read in one way only. The unit is chosen before
the number is rounded, so that a size very little below a unit is shown as 1024 of the unit before it
(`describe_reads`).
-/

namespace MetaExchange.Size

/-- The text that shows a number of hundredths with two places, and its unit. -/
def written (hundredths : Nat) (unit : String) : String :=
  toString (hundredths / 100) ++ "." ++ toString (hundredths / 10 % 10) ++ toString (hundredths % 10) ++
    " " ++ unit

/-- The units, each 1024 times as large as the one before it. -/
def units : List String := ["B", "KB", "MB", "GB", "TB"]

variable {bytes hundredths other : Nat} {unit unit' : String}

theorem toList_written (hundredths : Nat) (unit : String) :
    (written hundredths unit).toList =
      Nat.toDigits 10 (hundredths / 100) ++
        '.' :: (hundredths / 10 % 10).digitChar :: (hundredths % 10).digitChar :: ' ' :: unit.toList := by
  have tens : Nat.toDigits 10 (hundredths / 10 % 10) = [(hundredths / 10 % 10).digitChar] :=
    Nat.toDigits_of_lt_base (Nat.mod_lt _ (by decide))
  have ones : Nat.toDigits 10 (hundredths % 10) = [(hundredths % 10).digitChar] :=
    Nat.toDigits_of_lt_base (Nat.mod_lt _ (by decide))
  simp [written, Nat.toString_eq_repr, Nat.toList_repr, tens, ones]

theorem digitChar_inj {first second : Nat} (small : first < 10) (small' : second < 10)
    (same : first.digitChar = second.digitChar) : first = second := by
  have all : ∀ first < 10, ∀ second < 10, first.digitChar = second.digitChar → first = second := by decide
  exact all first small second small' same

theorem takeWhile_toDigits_append (value : Nat) (rest : List Char) :
    (Nat.toDigits 10 value ++ '.' :: rest).takeWhile Char.isDigit = Nat.toDigits 10 value := by
  have digits : ∀ code ∈ Nat.toDigits 10 value, code.isDigit = true := fun _ member =>
    Nat.isDigit_of_mem_toDigits (by decide) (by decide) member
  rw [List.takeWhile_append_of_pos digits, List.takeWhile_cons_of_neg (by decide), List.append_nil]

theorem written_inj (same : written hundredths unit = written other unit') :
    hundredths = other ∧ unit = unit' := by
  have lists := congrArg String.toList same
  rw [toList_written, toList_written] at lists
  have whole := congrArg (List.takeWhile Char.isDigit) lists
  rw [takeWhile_toDigits_append, takeWhile_toDigits_append] at whole
  rw [whole, List.append_cancel_left_eq] at lists
  simp only [List.cons.injEq, true_and] at lists
  obtain ⟨tens, ones, units⟩ := lists
  have whole := congrArg (Nat.ofDigitChars 10 · 0) whole
  simp only [Nat.ofDigitChars_toDigits (by decide : 1 < 10) (by decide)] at whole
  have tens := digitChar_inj (Nat.mod_lt _ (by decide)) (Nat.mod_lt _ (by decide)) tens
  have ones := digitChar_inj (Nat.mod_lt _ (by decide)) (Nat.mod_lt _ (by decide)) ones
  exact ⟨by omega, String.toList_injective units⟩

theorem padded_two {value : Nat} (small : value < 100) :
    Decimal.padded 2 value = toString (value / 10) ++ toString (value % 10) := by
  have all : ∀ value < 100, Decimal.padded 2 value = toString (value / 10) ++ toString (value % 10) := by
    decide
  exact all value small

theorem fixed_two (numerator denominator : Nat) (unit : String) :
    Decimal.fixed 2 numerator denominator ++ " " ++ unit =
      written (Decimal.roundHalfEven (numerator * 100) denominator) unit := by
  have split (hundredths : Nat) : hundredths % 100 / 10 = hundredths / 10 % 10 := by omega
  have last (hundredths : Nat) : hundredths % 100 % 10 = hundredths % 10 := by omega
  have hundred : Nat.pow 10 2 = 100 := rfl
  simp only [Decimal.fixed, hundred, padded_two (Nat.mod_lt _ (by decide : 0 < 100)), split, last, written,
    String.append_assoc]

/-- The unit is the last of which the size has one at least, except that there is no unit before the first. -/
theorem exists_inUnits_eq (size divisor : Nat) (unit : String) (larger : List String) :
    ∃ step name, (unit :: larger)[step]? = some name ∧
      inUnits size divisor unit larger =
        written (Decimal.roundHalfEven (size * 100) (1024 ^ step * divisor)) name ∧
      (step ≠ 0 → 1024 ^ step * divisor ≤ size) ∧
      (step < larger.length → size < 1024 ^ (step + 1) * divisor) := by
  induction larger generalizing divisor unit with
  | nil =>
      refine ⟨0, unit, rfl, ?_, by simp, by simp⟩
      rw [inUnits, fixed_two, Nat.pow_zero, Nat.one_mul]
  | cons next larger ih =>
      rw [inUnits]
      split
      · next enough =>
          obtain ⟨step, name, named, shown, least, below⟩ := ih (1024 * divisor) next
          have scaled (step : Nat) : 1024 ^ step * (1024 * divisor) = 1024 ^ (step + 1) * divisor := by
            rw [Nat.pow_succ, Nat.mul_assoc]
          simp only [scaled] at shown least below
          refine ⟨step + 1, name, named, shown, ?_, ?_⟩
          · intro _
            cases step with
            | zero => simpa using enough
            | succ step => exact least (by simp)
          · intro further
            exact below (by simpa using further)
      · next few =>
          refine ⟨0, unit, rfl, ?_, by simp, ?_⟩
          · rw [fixed_two, Nat.pow_zero, Nat.one_mul]
          · intro _
            omega

theorem exists_describe_eq (bytes : Nat) :
    ∃ step unit, units[step]? = some unit ∧
      describe bytes =
        written (Decimal.roundHalfEven (Binary64.nearestWhole bytes * 100) (1024 ^ step)) unit ∧
      (step ≠ 0 → 1024 ^ step ≤ Binary64.nearestWhole bytes) ∧
      (step < 4 → Binary64.nearestWhole bytes < 1024 ^ (step + 1)) := by
  have chosen := exists_inUnits_eq (Binary64.nearestWhole bytes) 1 "B" ["KB", "MB", "GB", "TB"]
  simp only [Nat.mul_one] at chosen
  exact chosen

variable {size divisor : Nat}

theorem hundred_le_of_le (positive : 0 < divisor) (least : divisor ≤ size) :
    100 ≤ Decimal.roundHalfEven (size * 100) divisor := by
  rw [Decimal.le_roundHalfEven_iff positive (by decide)]
  omega

/-- Rounding leads to the next unit, but not beyond, from half a hundredth below it. -/
theorem reaches_next_iff (positive : 0 < divisor) (below : size < divisor * 1024) :
    Decimal.roundHalfEven (size * 100) divisor ≤ 102400 ∧
      (102400 ≤ Decimal.roundHalfEven (size * 100) divisor ↔ 200 * (divisor * 1024 - size) ≤ divisor) := by
  constructor
  · by_contra beyond
    have further : 102401 ≤ Decimal.roundHalfEven (size * 100) divisor := by omega
    have scaled := Nat.mul_le_mul_right divisor further
    have within := (@Decimal.roundHalfEven_within (size * 100) _ positive).1
    omega
  · rw [Decimal.le_roundHalfEven_iff positive (by decide)]
    omega

/-- The text of a size reads as hundredths of a unit, and in no other way. They are nearest to the size in
that unit, which is the largest of which the size has one at least. So there are 100 of them, unless single
bytes are counted. Below the last unit there are fewer than 102400, except that a size is shown as 1024.00
exactly if half a hundredth or less is missing to the next unit. -/
theorem describe_reads (bytes : Nat) :
    (∃ hundredths unit, describe bytes = written hundredths unit) ∧
      ∀ hundredths unit, describe bytes = written hundredths unit →
        ∃ step, units[step]? = some unit ∧
          2 * (hundredths * 1024 ^ step) ≤ 200 * Binary64.nearestWhole bytes + 1024 ^ step ∧
          200 * Binary64.nearestWhole bytes ≤ 2 * (hundredths * 1024 ^ step) + 1024 ^ step ∧
          (unit ≠ "B" → 1024 ^ step ≤ bytes ∧ 100 ≤ hundredths) ∧
          (unit ≠ "TB" → bytes < 1024 ^ (step + 1) ∧ Binary64.nearestWhole bytes = bytes ∧
            (hundredths < 102400 ↔ 1024 ^ step < 200 * (1024 ^ (step + 1) - bytes)) ∧
            hundredths ≤ 102400) := by
  obtain ⟨step, unit, named, shown, least, below⟩ := exists_describe_eq bytes
  refine ⟨⟨_, _, shown⟩, ?_⟩
  intro hundredths unit' same
  obtain ⟨rfl, rfl⟩ := written_inj (shown.symm.trans same)
  have positive : 0 < 1024 ^ step := Nat.pow_pos (by decide)
  have few : step < 5 := (List.getElem?_eq_some_iff.mp named).1
  have small (step : Nat) (few : step ≤ 4) : 1024 ^ step ≤ 2 ^ 52 :=
    Nat.le_trans (Nat.pow_le_pow_right (by decide) few) (by decide)
  obtain ⟨lower, upper⟩ :=
    @Decimal.roundHalfEven_within (Binary64.nearestWhole bytes * 100) _ positive
  refine ⟨step, named, by omega, by omega, ?_, ?_⟩
  · intro notFirst
    have nonzero : step ≠ 0 := by
      rintro rfl
      exact notFirst (Option.some.inj named).symm
    exact ⟨Binary64.le_of_le_nearestWhole (small step (by omega)) (least nonzero),
      hundred_le_of_le positive (least nonzero)⟩
  · intro notLast
    have early : step < 4 := by
      by_contra last
      obtain rfl : step = 4 := by omega
      exact notLast (Option.some.inj named).symm
    have exact : Binary64.nearestWhole bytes = bytes :=
      Binary64.nearestWhole_eq_of_lt (Nat.lt_of_lt_of_le (below early) (small (step + 1) early))
    have next : bytes < 1024 ^ (step + 1) := exact ▸ below early
    rw [exact]
    rw [Nat.pow_succ] at next ⊢
    obtain ⟨most, reaches⟩ := reaches_next_iff positive next
    refine ⟨next, rfl, ?_, most⟩
    rw [← Nat.not_le, reaches, Nat.not_le]

/-- One byte below a unit, the number of the unit before it is rounded up to the limit. -/
theorem describe_reaches_next :
    describe 1048575 = "1024.00 KB" ∧ written 102400 "KB" = "1024.00 KB" ∧ "KB" ≠ "TB" ∧
      ¬ 102400 < 102400 := by
  decide

end MetaExchange.Size
