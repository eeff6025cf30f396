import Mathlib.Data.Finset.Card
import Mathlib.Logic.Function.Basic
import MetaExchange.Piece.Table
import MetaExchange.Proofs.Piece.Geometry

/-!
What a table of pieces holds, as a function from indices to pieces. Storing a piece changes the function
at one index; a table is complete when the function is defined at all its indices, and then the values
of the function, in order, are the metadata.
-/

namespace MetaExchange.Piece.Table

variable {table after : Table} {status : Status} {metadataSize index : Nat}
  {content : Nat → Option Bytes} {data : Bytes}

/-- A table for metadata of some size holds the pieces that `content` gives, and each of them has the
size of its place. -/
structure Holds (table : Table) (metadataSize : Nat) (content : Nat → Option Bytes) : Prop where
  size : table.metadataSize = metadataSize
  slots : table.slots = (List.range (count metadataSize)).map content
  received : table.received = table.slots.countP Option.isSome
  sized : ∀ index < count metadataSize, ∀ data, content index = some data →
    data.length = sizeAt metadataSize index

def empty (metadataSize : Nat) : Table :=
  ⟨metadataSize, List.replicate (count metadataSize) none, 0⟩

theorem holds_empty (metadataSize : Nat) : (empty metadataSize).Holds metadataSize fun _ => none where
  size := rfl
  slots := by simp [empty, List.map_const']
  received := by simp [empty, List.countP_replicate]
  sized index _ data held := by cases held

theorem create?_eq_ok_iff :
    create? metadataSize = .ok table ↔
      1 ≤ metadataSize ∧ metadataSize ≤ maxMetadataSize ∧ table = empty metadataSize := by
  simp only [create?, empty]
  split
  · next invalid =>
      simp only [reduceCtorEq, false_iff]
      omega
  · next valid =>
      have positive : 1 ≤ metadataSize := by omega
      have within : metadataSize ≤ maxMetadataSize := by omega
      simp only [positive, within, true_and, Except.ok.injEq, eq_comm]

theorem set_map_range (content : Nat → Option Bytes) (pieces index : Nat) (data : Bytes) :
    ((List.range pieces).map content).set index (some data) =
      (List.range pieces).map (Function.update content index (some data)) := by
  apply List.ext_getElem
  · simp
  · intro other _ _
    simp [List.getElem_set, Function.update_apply, eq_comm]

namespace Holds

theorem pieceCount (holds : table.Holds metadataSize content) :
    table.pieceCount = count metadataSize := by
  simp [Table.pieceCount, holds.slots]

theorem getElem?_slots (holds : table.Holds metadataSize content) (inside : index < count metadataSize) :
    table.slots[index]? = some (content index) := by
  simp [holds.slots, inside]

/-- The counter is the number of pieces that are held. -/
theorem received_eq_card (holds : table.Holds metadataSize content) :
    table.received =
      ((Finset.range (count metadataSize)).filter fun index => (content index).isSome = true).card := by
  have nodup : ((List.range (count metadataSize)).filter fun index => (content index).isSome).Nodup :=
    List.nodup_range.filter _
  have held : ((List.range (count metadataSize)).filter fun index => (content index).isSome).toFinset =
      (Finset.range (count metadataSize)).filter fun index => (content index).isSome = true := by
    ext index
    simp
  rw [← held, List.toFinset_card_of_nodup nodup, holds.received, holds.slots, List.countP_map,
    List.countP_eq_length_filter]
  rfl

theorem isComplete_iff (holds : table.Holds metadataSize content) :
    table.isComplete = true ↔ ∀ index < count metadataSize, (content index).isSome = true := by
  unfold isComplete Table.pieceCount
  rw [beq_iff_eq, holds.received, List.countP_eq_length, holds.slots]
  simp

theorem sized_update (holds : table.Holds metadataSize content)
    (exactSize : data.length = sizeAt metadataSize index) :
    ∀ other < count metadataSize, ∀ piece,
      Function.update content index (some data) other = some piece →
        piece.length = sizeAt metadataSize other := by
  intro other within piece held
  by_cases same : other = index
  · rw [same, Function.update_self] at held
    cases held
    rw [same, exactSize]
  · rw [Function.update_of_ne same] at held
    exact holds.sized other within piece held

/-- Only pieces of the right size at an index of the table are stored. They take the place of what was
held at that index. -/
theorem insert (holds : table.Holds metadataSize content)
    (inserted : table.insert index data = .ok (status, after)) :
    index < count metadataSize ∧ data.length = sizeAt metadataSize index ∧
      after.Holds metadataSize (Function.update content index (some data)) := by
  unfold Table.insert at inserted
  split at inserted
  · cases inserted
  · next held found =>
      obtain ⟨inside, atIndex⟩ := List.getElem?_eq_some_iff.mp found
      have bound : index < count metadataSize := by simpa [holds.slots] using inside
      dsimp only at inserted
      split at inserted
      · next exactSize =>
          rw [holds.size] at exactSize
          have slots : table.slots.set index (some data) =
              (List.range (count metadataSize)).map (Function.update content index (some data)) := by
            rw [holds.slots, set_map_range]
          have counted := List.countP_set (p := Option.isSome) (a := some data) inside
          rw [atIndex, ← holds.received] at counted
          refine ⟨bound, exactSize, ?_⟩
          cases held with
          | none =>
              cases inserted
              exact ⟨holds.size, slots, by simpa using counted.symm, holds.sized_update exactSize⟩
          | some earlier =>
              cases inserted
              have filled : 0 < table.received := by
                rw [holds.received]
                exact List.countP_pos_iff.mpr ⟨some earlier, List.mem_of_getElem? found, rfl⟩
              have unchanged : table.received = (table.slots.set index (some data)).countP
                  Option.isSome := by
                simp only [Option.isSome_some, ↓reduceIte] at counted
                omega
              exact ⟨holds.size, slots, unchanged, holds.sized_update exactSize⟩
      · cases inserted

theorem exists_insert (holds : table.Holds metadataSize content) (inside : index < count metadataSize)
    (exactSize : data.length = sizeAt metadataSize index) :
    ∃ status after, table.insert index data = .ok (status, after) := by
  unfold Table.insert
  rw [holds.getElem?_slots inside]
  simp only [holds.size, exactSize, ↓reduceIte]
  cases content index with
  | none => exact ⟨_, _, rfl⟩
  | some earlier => exact ⟨_, _, rfl⟩

theorem concatenation (holds : table.Holds metadataSize content) :
    table.concatenation =
      (List.range (count metadataSize)).flatMap fun index => (content index).getD [] := by
  unfold Table.concatenation
  rw [holds.slots]
  induction List.range (count metadataSize) with
  | nil => rfl
  | cons index rest ih =>
      cases held : content index with
      | none => simpa [held] using ih
      | some data => simpa [held] using ih

/-- The pieces of a complete table have the size that was asked for, all together. -/
theorem length_concatenation (holds : table.Holds metadataSize content)
    (complete : table.isComplete = true) : table.concatenation.length = metadataSize := by
  rw [holds.concatenation, List.length_flatMap]
  have sizes : ∀ index ∈ List.range (count metadataSize),
      ((content index).getD []).length = sizeAt metadataSize index := by
    intro index member
    have within := List.mem_range.mp member
    obtain ⟨data, held⟩ := Option.isSome_iff_exists.mp (holds.isComplete_iff.mp complete index within)
    rw [held]
    exact holds.sized index within data held
  rw [List.map_congr_left sizes, sum_sizeAt_count]

/-- A complete table gives its pieces in order. The check of their size cannot fail. -/
theorem assemble (holds : table.Holds metadataSize content) (complete : table.isComplete = true) :
    table.assemble = some table.concatenation := by
  unfold Table.assemble
  rw [if_pos complete]
  exact if_pos ((holds.length_concatenation complete).trans holds.size.symm)

end Holds

end MetaExchange.Piece.Table
