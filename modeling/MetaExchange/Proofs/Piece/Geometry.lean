import Mathlib.Algebra.GroupWithZero.Nat
import Mathlib.Order.Interval.Finset.Nat
import MetaExchange.Bytes.Basic
import MetaExchange.Piece.Geometry

/-!
Pieces tile the metadata: their sizes add up to its size, and put one after the other they are the
metadata again. In 64 bits, the place of a piece can be worked out for the indices below 2^50 only
(`checkedSizes_eq_overlaps`).
-/

namespace MetaExchange.Piece

variable {metadataSize : Nat}

theorem count_pos (positive : 0 < metadataSize) : 0 < count metadataSize := by
  simp only [count, fullSize]
  omega

theorem count_le (within : metadataSize ≤ maxMetadataSize) : count metadataSize ≤ 64 := by
  simp only [count, fullSize, maxMetadataSize] at *
  omega

theorem le_count_mul (metadataSize : Nat) : metadataSize ≤ count metadataSize * fullSize := by
  simp only [count, fullSize]
  omega

theorem sizeAt_eq (metadataSize index : Nat) :
    sizeAt metadataSize index = min fullSize (metadataSize - fullSize * index) := by
  rw [sizeAt, Nat.min_comm, Nat.mul_comm]

/-- The first pieces reach as far as full pieces would, or to the end of the metadata. -/
theorem sum_sizeAt (metadataSize pieces : Nat) :
    ((List.range pieces).map (sizeAt metadataSize)).sum = min metadataSize (pieces * fullSize) := by
  induction pieces with
  | zero => simp
  | succ pieces ih =>
      rw [List.range_succ, List.map_append, List.sum_append, ih]
      simp only [List.map_cons, List.map_nil, List.sum_cons, List.sum_nil, sizeAt, Nat.succ_mul]
      omega

theorem sum_sizeAt_count (metadataSize : Nat) :
    ((List.range (count metadataSize)).map (sizeAt metadataSize)).sum = metadataSize := by
  rw [sum_sizeAt, Nat.min_eq_left (le_count_mul metadataSize)]

/-! ### Sizes worked out in 64 bits -/

/-- How many bytes of the metadata lie in the range that a piece stands for. -/
def overlap (metadataSize index : Nat) : Nat :=
  (Finset.Ico (index * fullSize) ((index + 1) * fullSize) ∩ Finset.range metadataSize).card

theorem sizeAt_eq_overlap (metadataSize index : Nat) :
    sizeAt metadataSize index = overlap metadataSize index := by
  have cut : Finset.Ico (index * fullSize) ((index + 1) * fullSize) ∩ Finset.range metadataSize =
      Finset.Ico (index * fullSize) (min ((index + 1) * fullSize) metadataSize) := by
    rw [Finset.range_eq_Ico, Finset.Ico_inter_Ico, Nat.max_eq_left (Nat.zero_le _)]
  rw [overlap, cut, Nat.card_Ico, sizeAt, Nat.succ_mul]
  omega

theorem sizeAt_of_lt_last {index : Nat} (earlier : index < count metadataSize - 1) :
    sizeAt metadataSize index = fullSize := by
  simp only [count, sizeAt, fullSize] at *
  omega

theorem sizeAt_last (positive : 1 ≤ metadataSize) :
    1 ≤ sizeAt metadataSize (count metadataSize - 1) ∧
      sizeAt metadataSize (count metadataSize - 1) ≤ fullSize := by
  simp only [count, sizeAt, fullSize]
  omega

theorem sizeAt_of_count_le {index : Nat} (behind : count metadataSize ≤ index) :
    sizeAt metadataSize index = 0 := by
  simp only [count, sizeAt, fullSize] at *
  omega

/-- Where a piece starts fits 64 bits exactly if its index fits 50. -/
theorem sizeAt?_eq (metadataSize index : Nat) :
    sizeAt? metadataSize index = if index < 2 ^ 50 then some (sizeAt metadataSize index) else none := by
  have fits : index * fullSize < UInt64.size ↔ index < 2 ^ 50 := by
    rw [fullSize, UInt64.size]
    omega
  simp only [sizeAt?, fits]

/-- For an index below 2^50, the size of a piece is what it shares with the metadata: all pieces are full
but the last, which is not empty, and behind it there is nothing. So these sizes add up to the size of the
metadata. For the indices from there on to the end of 64 bits there is no size, as the place where such a
piece would start is too large. -/
theorem checkedSizes_eq_overlaps (positive : 1 ≤ metadataSize)
    (within : metadataSize ≤ maxMetadataSize) :
    (∀ index : UInt64,
      (index.toNat < 2 ^ 50 →
        sizeAt? metadataSize index.toNat = some (overlap metadataSize index.toNat)) ∧
      (2 ^ 50 ≤ index.toNat → sizeAt? metadataSize index.toNat = none)) ∧
    (∀ index,
      (index < count metadataSize - 1 → overlap metadataSize index = fullSize) ∧
      (index = count metadataSize - 1 →
        1 ≤ overlap metadataSize index ∧ overlap metadataSize index ≤ fullSize) ∧
      (count metadataSize ≤ index → overlap metadataSize index = 0)) ∧
    ∃ sizes : List Nat,
      (List.range (2 ^ 50)).map (sizeAt? metadataSize) = sizes.map some ∧ sizes.sum = metadataSize := by
  refine ⟨fun index => ⟨fun small => ?_, fun large => ?_⟩, fun index => ⟨?_, ?_, ?_⟩,
    (List.range (2 ^ 50)).map (sizeAt metadataSize), ?_, ?_⟩
  · rw [sizeAt?_eq, if_pos small, sizeAt_eq_overlap]
  · rw [sizeAt?_eq, if_neg (Nat.not_lt.mpr large)]
  · intro earlier
    rw [← sizeAt_eq_overlap, sizeAt_of_lt_last earlier]
  · rintro rfl
    rw [← sizeAt_eq_overlap]
    exact sizeAt_last positive
  · intro behind
    rw [← sizeAt_eq_overlap, sizeAt_of_count_le behind]
  · rw [List.map_map]
    apply List.map_congr_left
    intro index member
    rw [sizeAt?_eq, if_pos (List.mem_range.mp member)]
    rfl
  · have enough : count metadataSize ≤ 2 ^ 50 := Nat.le_trans (count_le within) (by decide)
    have reached := Nat.mul_le_mul_right fullSize enough
    rw [sum_sizeAt, Nat.min_eq_left (Nat.le_trans (le_count_mul metadataSize) reached)]

/-- Two pieces, the second of which is not full, and the last index of 64 bits. -/
theorem checkedSizes_eq_overlaps_twoPieces :
    1 ≤ 20000 ∧ 20000 ≤ maxMetadataSize ∧ sizeAt? 20000 (1 : UInt64).toNat = some (overlap 20000 1) ∧
      overlap 20000 0 = fullSize ∧ overlap 20000 2 = 0 ∧
      sizeAt? 20000 (18446744073709551615 : UInt64).toNat = none := by
  have within : 20000 ≤ maxMetadataSize := by decide
  have positive : 1 ≤ 20000 := by decide
  obtain ⟨checked, shape, _⟩ := checkedSizes_eq_overlaps positive within
  exact ⟨positive, within, (checked 1).1 (by decide), (shape 0).1 (by decide),
    (shape 2).2.2 (by decide), (checked 18446744073709551615).2 (by decide)⟩

/-- The first index for which there is no size, although nothing of the metadata lies at its place. -/
theorem checkedSize_missing_behind_metadata :
    (1125899906842624 : UInt64).toNat = 2 ^ 50 ∧
      sizeAt? 1 (1125899906842624 : UInt64).toNat = none ∧
      overlap 1 (1125899906842624 : UInt64).toNat = 0 := by
  refine ⟨rfl, ?_, ?_⟩
  · rw [sizeAt?_eq]
    exact if_neg (by decide)
  · rw [← sizeAt_eq_overlap]
    exact sizeAt_of_count_le (by decide)

/-! ### Slices of the metadata -/

def slice (metadata : Bytes) (index : Nat) : Bytes :=
  (metadata.drop (index * fullSize)).take fullSize

theorem length_slice (metadata : Bytes) (index : Nat) :
    (slice metadata index).length = sizeAt metadata.length index := by
  simp only [slice, sizeAt, List.length_take, List.length_drop]
  omega

/-- The first pieces, one after the other, are the front of the metadata. -/
theorem flatMap_slice (metadata : Bytes) (pieces : Nat) :
    (List.range pieces).flatMap (slice metadata) = metadata.take (pieces * fullSize) := by
  induction pieces with
  | zero => simp
  | succ pieces ih =>
      rw [List.range_succ, List.flatMap_append, ih, Nat.succ_mul, List.take_add]
      simp [slice]

theorem flatMap_slice_count (metadata : Bytes) :
    (List.range (count metadata.length)).flatMap (slice metadata) = metadata := by
  rw [flatMap_slice, List.take_of_length_le (le_count_mul metadata.length)]

end MetaExchange.Piece
