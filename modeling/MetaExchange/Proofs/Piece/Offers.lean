import Mathlib.Data.List.Induction
import MetaExchange.Proofs.Piece.Content

/-!
Pieces that are offered to a table one after the other, in any order, some of them refused. A table holds
at each index what it accepted last for it, and it accepts what fits its place, whatever came before; so
the pieces of one index are all that decides what it holds there (`offerAll_table_eq`).
-/

namespace MetaExchange.Piece

structure Offer where
  index : Nat
  data : Bytes

variable {metadataSize index offset : Nat} {data : Bytes} {piece : Offer} {offers others : List Offer}

def Offer.Fits (metadataSize : Nat) (piece : Offer) : Prop :=
  piece.index < count metadataSize ∧ piece.data.length = sizeAt metadataSize piece.index

instance : DecidablePred (Offer.Fits metadataSize) := fun _ => inferInstanceAs (Decidable (_ ∧ _))

/-- The data that came last for an index. -/
def lastData (offers : List Offer) (index : Nat) : Option Bytes :=
  (offers.reverse.find? fun piece => piece.index = index).map Offer.data

theorem lastData_concat (offers : List Offer) (piece : Offer) :
    lastData (offers ++ [piece]) =
      Function.update (lastData offers) piece.index (some piece.data) := by
  funext index
  rw [lastData, List.reverse_concat, List.find?_cons]
  by_cases same : piece.index = index
  · simp [same]
  · simp [same, Function.update_of_ne (Ne.symm same), lastData]

theorem isSome_lastData_iff :
    (lastData offers index).isSome = true ↔ ∃ piece ∈ offers, piece.index = index := by
  simp [lastData, List.find?_isSome]

theorem lastData_filter_index (offers : List Offer) (index : Nat) :
    lastData (offers.filter fun piece => piece.index = index) index = lastData offers index := by
  simp [lastData, ← List.filter_reverse, List.find?_filter]

/-- Where pieces are put one after the other, a byte is that of the piece in which its offset lies. -/
theorem getElem?_flatMap_pieces {content : Nat → Bytes} (pieces : Nat)
    (sized : ∀ index < pieces, (content index).length = sizeAt metadataSize index)
    (inside : offset < metadataSize) (reached : offset < pieces * fullSize) :
    ((List.range pieces).flatMap content)[offset]? =
      (content (offset / fullSize))[offset % fullSize]? := by
  induction pieces with
  | zero =>
      rw [Nat.zero_mul] at reached
      exact absurd reached (Nat.not_lt_zero offset)
  | succ pieces ih =>
      have sizedBefore : ∀ index < pieces, (content index).length = sizeAt metadataSize index :=
        fun index earlier => sized index (Nat.lt_succ_of_lt earlier)
      -- Before this piece, all are full, unless the metadata end with one of them.
      have before : ((List.range pieces).flatMap content).length =
          min metadataSize (pieces * fullSize) := by
        rw [List.length_flatMap, ← sum_sizeAt]
        exact congrArg List.sum (List.map_congr_left fun index member =>
          sizedBefore index (List.mem_range.mp member))
      rw [List.range_succ, List.flatMap_append, List.flatMap_singleton]
      by_cases earlier : offset < pieces * fullSize
      · rw [List.getElem?_append_left (by omega), ih sizedBefore earlier]
      · have start : offset / fullSize = pieces :=
          Nat.div_eq_of_lt_le (Nat.le_of_not_lt earlier) reached
        have lane : offset % fullSize = offset - pieces * fullSize := by
          rw [Nat.mod_eq_sub_div_mul, start]
        rw [List.getElem?_append_right (by omega), before, start, lane,
          Nat.min_eq_right (by omega)]

namespace Table

theorem isComplete_iff_of_counted {table : Table}
    (counted : table.received = table.slots.countP Option.isSome) :
    table.isComplete = true ↔ ∀ slot ∈ table.slots, slot.isSome = true := by
  rw [isComplete, beq_iff_eq, counted, pieceCount, List.countP_eq_length]

variable {table other start after : Table} {status : Status} {content contents : Nat → Option Bytes}

namespace Holds

theorem insert_iff (holds : table.Holds metadataSize content) :
    (∃ status after, table.insert index data = .ok (status, after)) ↔
      index < table.pieceCount ∧ data.length = sizeAt metadataSize index := by
  rw [holds.pieceCount]
  refine ⟨fun given => ?_, fun given => holds.exists_insert given.1 given.2⟩
  obtain ⟨status, after, inserted⟩ := given
  obtain ⟨inside, exactSize, _⟩ := holds.insert inserted
  exact ⟨inside, exactSize⟩

/-- An accepted piece changes its slot and no other, and it replaces what was held there. -/
theorem insert_eq (holds : table.Holds metadataSize content)
    (inserted : table.insert index data = .ok (status, after)) :
    (status = .replaced ↔ (content index).isSome = true) ∧
      after.metadataSize = table.metadataSize ∧
      after.slots = table.slots.set index (some data) := by
  obtain ⟨inside, exactSize, _⟩ := holds.insert inserted
  rw [← holds.size] at exactSize
  simp only [Table.insert, holds.getElem?_slots inside, exactSize, ↓reduceIte] at inserted
  cases held : content index with
  | none =>
      rw [held] at inserted
      cases inserted
      simp
  | some earlier =>
      rw [held] at inserted
      cases inserted
      simp

theorem eq_of_content (holds : table.Holds metadataSize content)
    (holdsOther : other.Holds metadataSize contents)
    (same : ∀ index < count metadataSize, content index = contents index) : table = other := by
  have slots : table.slots = other.slots := by
    rw [holds.slots, holdsOther.slots]
    exact List.map_congr_left fun index member => same index (List.mem_range.mp member)
  have size := holds.size.trans holdsOther.size.symm
  have received : table.received = other.received := by
    rw [holds.received, holdsOther.received, slots]
  cases table
  cases other
  simp_all

theorem isSome_assemble (holds : table.Holds metadataSize content) :
    table.assemble.isSome = table.isComplete := by
  cases complete : table.isComplete with
  | true => simp [holds.assemble complete]
  | false => simp [Table.assemble, complete]

theorem concatenation_of_assemble (holds : table.Holds metadataSize content) {metadata : Bytes}
    (assembled : table.assemble = some metadata) :
    table.isComplete = true ∧ metadata = table.concatenation := by
  have complete : table.isComplete = true := by
    rw [← holds.isSome_assemble, assembled, Option.isSome_some]
  exact ⟨complete, Option.some.inj (assembled.symm.trans (holds.assemble complete))⟩

theorem length_of_assemble (holds : table.Holds metadataSize content) {metadata : Bytes}
    (assembled : table.assemble = some metadata) : metadata.length = metadataSize := by
  obtain ⟨complete, rfl⟩ := holds.concatenation_of_assemble assembled
  exact holds.length_concatenation complete

theorem byte_of_assemble (holds : table.Holds metadataSize content) {metadata : Bytes}
    (assembled : table.assemble = some metadata) (inside : offset < metadataSize) :
    ∃ data byte, content (offset / fullSize) = some data ∧
      data[offset % fullSize]? = some byte ∧ metadata[offset]? = some byte := by
  obtain ⟨complete, rfl⟩ := holds.concatenation_of_assemble assembled
  have filled := holds.isComplete_iff.mp complete
  have sized : ∀ index < count metadataSize,
      ((content index).getD []).length = sizeAt metadataSize index := by
    intro index within
    obtain ⟨data, held⟩ := Option.isSome_iff_exists.mp (filled index within)
    rw [held]
    exact holds.sized index within data held
  have total := holds.length_of_assemble assembled
  have reached : offset < table.concatenation.length := by omega
  have byteAt := List.getElem?_eq_getElem reached
  have lies := getElem?_flatMap_pieces _ sized inside
    (Nat.lt_of_lt_of_le inside (le_count_mul metadataSize))
  rw [← holds.concatenation, byteAt] at lies
  cases held : content (offset / fullSize) with
  | none => simp [held] at lies
  | some data => exact ⟨data, _, rfl, by simpa [held] using lies.symm, byteAt⟩

end Holds

/-- A table, and the pieces that it accepted so far, in order. -/
structure Record where
  table : Table
  accepted : List Offer

/-- Offers one more piece. A table that refuses it stays as it was. -/
def Record.offer (record : Record) (piece : Offer) : Record :=
  match record.table.insert piece.index piece.data with
  | .error _ => record
  | .ok (_, after) => ⟨after, record.accepted ++ [piece]⟩

def offerAll (start : Table) (offers : List Offer) : Record := offers.foldl Record.offer ⟨start, []⟩

theorem offerAll_concat (start : Table) (offers : List Offer) (piece : Offer) :
    start.offerAll (offers ++ [piece]) = (start.offerAll offers).offer piece := by
  simp [offerAll]

/-- A record of the pieces offered: those that fit were accepted, and the table holds the last of them for
each index. -/
structure Record.Covers (record : Record) (metadataSize : Nat) (offers : List Offer) : Prop where
  accepted : record.accepted = offers.filter (Offer.Fits metadataSize)
  holds : record.table.Holds metadataSize (lastData record.accepted)

theorem Record.Covers.offer {record : Record} (covers : record.Covers metadataSize offers)
    (piece : Offer) : (record.offer piece).Covers metadataSize (offers ++ [piece]) := by
  have fitting : (∃ status after,
      record.table.insert piece.index piece.data = .ok (status, after)) ↔ piece.Fits metadataSize := by
    rw [covers.holds.insert_iff, covers.holds.pieceCount, Offer.Fits]
  cases inserted : record.table.insert piece.index piece.data with
  | error cause =>
      -- Whether a piece fits does not depend on what the table holds, so the table refuses misfits only.
      have misfit : ¬ piece.Fits metadataSize := fun fits => by simpa [inserted] using fitting.mpr fits
      simp only [Record.offer, inserted]
      exact ⟨by simp [misfit, covers.accepted], covers.holds⟩
  | ok result =>
      have fits : piece.Fits metadataSize := fitting.mp ⟨result.1, result.2, inserted⟩
      obtain ⟨_, _, holds⟩ := covers.holds.insert inserted
      simp only [Record.offer, inserted]
      exact ⟨by simp [fits, covers.accepted], by rw [lastData_concat]; exact holds⟩

theorem covers_offerAll (holds : start.Holds metadataSize fun _ => none) (offers : List Offer) :
    (start.offerAll offers).Covers metadataSize offers := by
  induction offers using List.reverseRecOn with
  | nil => exact ⟨rfl, holds⟩
  | append_singleton offers piece ih =>
      rw [offerAll_concat]
      exact ih.offer piece

/-- The table does not depend on the order in which pieces of different indices were offered. -/
theorem offerAll_table_eq (holds : start.Holds metadataSize fun _ => none)
    (same : ∀ index, others.filter (fun piece => piece.index = index) =
      offers.filter fun piece => piece.index = index) :
    (start.offerAll others).table = (start.offerAll offers).table := by
  have covers := covers_offerAll holds offers
  have coversOther := covers_offerAll holds others
  apply coversOther.holds.eq_of_content covers.holds
  intro index _
  rw [covers.accepted, coversOther.accepted, ← lastData_filter_index (others.filter _),
    ← lastData_filter_index (offers.filter _), List.filter_comm, List.filter_comm _ _ offers, same]

theorem Record.Covers.received_eq_card {record : Record} (covers : record.Covers metadataSize offers) :
    record.table.received = (record.accepted.map Offer.index).toFinset.card := by
  rw [covers.holds.received_eq_card]
  congr 1
  ext index
  simp only [Finset.mem_filter, Finset.mem_range, isSome_lastData_iff, List.mem_toFinset, List.mem_map]
  refine ⟨fun given => given.2, fun given => ⟨?_, given⟩⟩
  obtain ⟨piece, member, rfl⟩ := given
  rw [covers.accepted] at member
  exact (of_decide_eq_true (List.mem_filter.mp member).2).1

/-- How a table answers to one more piece behind those of a record: it takes the piece exactly if there is
a slot for it and it has the size of that slot. -/
structure Record.Answers (record : Record) (metadataSize index : Nat) (data : Bytes) : Prop where
  takes : (∃ status after, record.table.insert index data = .ok (status, after)) ↔
    index < record.table.pieceCount ∧ data.length = sizeAt metadataSize index
  unchanged : ∀ cause, record.table.insert index data = .error cause →
    record.offer ⟨index, data⟩ = record
  changed : ∀ status after, record.table.insert index data = .ok (status, after) →
    record.offer ⟨index, data⟩ = ⟨after, record.accepted ++ [⟨index, data⟩]⟩ ∧
      (status = .replaced ↔ ∃ piece ∈ record.accepted, piece.index = index) ∧
      after.metadataSize = record.table.metadataSize ∧
      after.slots = record.table.slots.set index (some data)

/-- What a table tells of the pieces of a record. It is complete when all slots are filled, and then it
gives the metadata: each byte is that of the piece accepted last for the place where it lies. -/
structure Record.Tells (record : Record) (metadataSize : Nat) : Prop where
  size : record.table.metadataSize = metadataSize
  pieceCount : record.table.pieceCount = count metadataSize
  filled : record.table.received = record.table.slots.countP Option.isSome
  distinct : record.table.received = (record.accepted.map Offer.index).toFinset.card
  complete : record.table.isComplete = true ↔ ∀ slot ∈ record.table.slots, slot.isSome = true
  /-- The last check on the data cannot fail. -/
  whole : record.table.isComplete = true →
    record.table.concatenation.length = record.table.metadataSize
  assembles : record.table.assemble.isSome = record.table.isComplete
  bytes : ∀ metadata, record.table.assemble = some metadata → metadata.length = metadataSize ∧
    ∀ offset < metadataSize, ∃ data byte,
      lastData record.accepted (offset / fullSize) = some data ∧
      data[offset % fullSize]? = some byte ∧ metadata[offset]? = some byte

namespace Record.Covers

variable {record : Record}

theorem answers (covers : record.Covers metadataSize offers) (index : Nat) (data : Bytes) :
    record.Answers metadataSize index data where
  takes := covers.holds.insert_iff
  unchanged cause refused := by simp only [Record.offer, refused]
  changed status after inserted := by
    obtain ⟨replaced, sameSize, slots⟩ := covers.holds.insert_eq inserted
    refine ⟨?_, replaced.trans isSome_lastData_iff, sameSize, slots⟩
    simp only [Record.offer, inserted]

theorem tells (covers : record.Covers metadataSize offers) : record.Tells metadataSize where
  size := covers.holds.size
  pieceCount := covers.holds.pieceCount
  filled := covers.holds.received
  distinct := covers.received_eq_card
  complete := isComplete_iff_of_counted covers.holds.received
  whole complete := (covers.holds.length_concatenation complete).trans covers.holds.size.symm
  assembles := covers.holds.isSome_assemble
  bytes _ assembled :=
    ⟨covers.holds.length_of_assemble assembled,
      fun _ inside => covers.holds.byte_of_assemble assembled inside⟩

end Record.Covers

/-- There is a table for metadata of any size within the limit. Whatever pieces are offered to it, in any
order, it answers and tells what it should, and the order of pieces for different indices makes no
difference to it. -/
theorem offerAll_faithful (positive : 1 ≤ metadataSize) (within : metadataSize ≤ maxMetadataSize) :
    ∃ start, create? metadataSize = .ok start ∧ ∀ offers,
      (∀ index data, (start.offerAll offers).Answers metadataSize index data) ∧
      (start.offerAll offers).Tells metadataSize ∧
      ∀ others, (∀ index, others.filter (fun piece => piece.index = index) =
          offers.filter fun piece => piece.index = index) →
        (start.offerAll others).table = (start.offerAll offers).table := by
  refine ⟨empty metadataSize, create?_eq_ok_iff.mpr ⟨positive, within, rfl⟩, fun offers => ?_⟩
  have covers := covers_offerAll (holds_empty metadataSize) offers
  exact ⟨covers.answers, covers.tells, fun _ same => offerAll_table_eq (holds_empty metadataSize) same⟩

/-- Two pieces that come in either order. -/
theorem offerAll_faithful_twoPieces :
    let first : Offer := ⟨0, List.replicate fullSize 1⟩
    let last : Offer := ⟨1, [2, 3]⟩
    1 ≤ fullSize + 2 ∧ fullSize + 2 ≤ maxMetadataSize ∧
      ∃ start, create? (fullSize + 2) = .ok start ∧
        (start.offerAll [first, last]).Tells (fullSize + 2) ∧
        (start.offerAll [last, first]).table = (start.offerAll [first, last]).table := by
  intro first last
  have positive : 1 ≤ fullSize + 2 := by decide
  have within : fullSize + 2 ≤ maxMetadataSize := by decide
  obtain ⟨start, created, faithful⟩ := offerAll_faithful positive within
  obtain ⟨_, tells, anyOrder⟩ := faithful [first, last]
  refine ⟨positive, within, start, created, tells, anyOrder _ fun index => ?_⟩
  match index with
  | 0 => rfl
  | 1 => rfl
  | index + 2 => rfl

end Table

end MetaExchange.Piece
