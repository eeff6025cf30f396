import MetaExchange.Proofs.Exchange.Rules
import MetaExchange.Proofs.Extension.MetadataMessage
import MetaExchange.Proofs.Piece.Offers

namespace MetaExchange

namespace Failure

variable {failure : Failure} {context : String}

def isDecode : Failure → Bool
  | .decode .. => true
  | _ => false

def isMetadata : Failure → Bool
  | .metadata .. => true
  | _ => false

@[simp] theorem isDecode_withContext : (failure.withContext context).isDecode = failure.isDecode := by
  cases failure <;> rfl

@[simp] theorem isMetadata_withContext :
    (failure.withContext context).isMetadata = failure.isMetadata := by
  cases failure <;> rfl

end Failure

@[simp] theorem Bencode.Error.isDecode_toFailure (cause : Bencode.Error) :
    cause.toFailure.isDecode = true := by
  cases cause <;> rfl

@[simp] theorem Bencode.Error.isMetadata_toFailure (cause : Bencode.Error) :
    cause.toFailure.isMetadata = false := by
  cases cause <;> rfl

namespace Extension.Announcement

variable {payload : Bytes} {announcement : Announcement} {dictionary : Bencode.Value} {number : Int64}

theorem decode_eq_ok_iff :
    decode payload = .ok announcement ↔
      ∃ dictionary behind, Bencode.decodeDict payload = .ok (dictionary, behind) ∧
        ofValue dictionary = announcement := by
  cases decoded : Bencode.decodeDict payload with
  | error cause => simp [decode, decoded]
  | ok found => simp [decode, decoded, Prod.ext_iff]

theorem metadataId_ofValue_iff :
    (ofValue dictionary).metadataId = some number ↔
      ∃ extensions, dictionary.get? (Bytes.ofString "m") = some extensions ∧
        extensions.getInt? "ut_metadata" = some number :=
  Option.bind_eq_some_iff

end Extension.Announcement

namespace Exchange

open Bencode (decodeDict)

variable {payload data : Bytes} {metadataId : UInt8} {metadataSize index : Nat}
  {table after : Piece.Table} {content : Nat → Option Bytes} {fault : Fault}

/-- The payload announces a number for messages about pieces and the size of the metadata, both within
their limits. What else is in its dictionary, and what stands behind it, does not matter. -/
def Offers (payload : Bytes) (metadataId : UInt8) (metadataSize : Nat) : Prop :=
  ∃ dictionary behind extensions, decodeDict payload = .ok (dictionary, behind) ∧
    dictionary.get? (Bytes.ofString "m") = some extensions ∧
    (∃ number : Int64, extensions.getInt? "ut_metadata" = some number ∧
      number.toInt = metadataId.toNat) ∧
    metadataId ≠ 0 ∧
    (∃ size : Int64, dictionary.getInt? "metadata_size" = some size ∧ size.toInt = metadataSize) ∧
    1 ≤ metadataSize ∧ metadataSize ≤ Piece.maxMetadataSize

/-- The payload sends a piece that belongs to the table and has the size of its place: its dictionary
says so, and what stands behind the dictionary is the piece. -/
def Sends (payload : Bytes) (table : Piece.Table) (index : Nat) (data : Bytes) : Prop :=
  ∃ dictionary, decodeDict payload = .ok (dictionary, data) ∧
    dictionary.getInt? "msg_type" = some 1 ∧
    (∃ number : Int64, dictionary.getInt? "piece" = some number ∧ number.toInt = index) ∧
    (∀ totalSize : Int64, dictionary.getInt? "total_size" = some totalSize →
      totalSize.toInt = table.metadataSize) ∧
    index < table.pieceCount ∧
    data.length = min Piece.fullSize (table.metadataSize - Piece.fullSize * index)

theorem Sends.fits (sends : Sends payload table index data) :
    index < table.pieceCount ∧ data.length = Piece.sizeAt table.metadataSize index := by
  obtain ⟨_, _, _, _, _, inside, exactSize⟩ := sends
  exact ⟨inside, exactSize.trans (Piece.sizeAt_eq _ _).symm⟩

theorem negotiate_iff :
    negotiate payload = .ok (⟨metadataId, metadataSize⟩, table) ↔
      Offers payload metadataId metadataSize ∧ table = Piece.Table.empty metadataSize := by
  rw [negotiate_eq_ok_iff]
  refine ⟨fun given => ?_, fun given => ?_⟩
  · obtain ⟨announcement, decoded, agreed, created⟩ := given
    obtain ⟨positive, within, same⟩ := Piece.Table.create?_eq_ok_iff.mp created
    obtain ⟨dictionary, behind, read, rfl⟩ := Extension.Announcement.decode_eq_ok_iff.mp decoded
    obtain ⟨number, size, saidId, saidSize, validId, validSize, terms⟩ :=
      Extension.Announcement.terms_eq_ok_iff.mp agreed
    obtain ⟨extensions, found, numbered⟩ := Extension.Announcement.metadataId_ofValue_iff.mp saidId
    obtain ⟨sameId, sameSize⟩ := Extension.Terms.mk.inj terms
    -- The number was checked to fit a byte, so nothing is lost in the byte that is kept of it.
    have value : number.toInt = metadataId.toNat := by
      rw [sameId, UInt8.toNat_ofNat']
      omega
    have nonzero : metadataId ≠ 0 := by
      rintro rfl
      rw [value] at validId
      exact absurd validId.1 (by decide)
    exact ⟨⟨dictionary, behind, extensions, read, found, ⟨number, numbered, value⟩, nonzero,
      ⟨size, saidSize, by omega⟩, positive, within⟩, same⟩
  · obtain ⟨⟨dictionary, behind, extensions, read, found, ⟨number, numbered, value⟩, nonzero,
      ⟨size, saidSize, sizeValue⟩, positive, within⟩, same⟩ := given
    have byte := metadataId.toNat_lt
    have positiveId : metadataId.toNat ≠ 0 := fun zero => nonzero (UInt8.toNat_inj.mp zero)
    refine ⟨Extension.Announcement.ofValue dictionary,
      Extension.Announcement.decode_eq_ok_iff.mpr ⟨dictionary, behind, read, rfl⟩, ?_,
      Piece.Table.create?_eq_ok_iff.mpr ⟨positive, within, same⟩⟩
    refine Extension.Announcement.terms_eq_ok_iff.mpr ⟨number, size,
      Extension.Announcement.metadataId_ofValue_iff.mpr ⟨extensions, found, numbered⟩, saidSize,
      by omega, by omega, ?_⟩
    rw [value, sizeValue, Int.toNat_natCast, Int.toNat_natCast, UInt8.ofNat_toNat]

/-- Either the announcement cannot be read, or what it says is refused. There is always a table for the
terms. -/
theorem negotiate_error_cases (refused : negotiate payload = .error fault) :
    (∃ cause, decodeDict payload = .error cause ∧ fault = .announcement (.malformed cause)) ∨
      ∃ found cause, decodeDict payload = .ok found ∧
        (Extension.Announcement.ofValue found.1).terms = .error cause ∧ fault = .announcement cause := by
  simp only [negotiate, Except.bind_eq_error_iff, Except.mapError_eq_error_iff,
    Except.mapError_eq_ok_iff] at refused
  rcases refused with ⟨cause, unread, rfl⟩ | ⟨announcement, decoded, refused⟩
  · cases decoded : decodeDict payload with
    | error inner =>
        rw [Extension.Announcement.decode, decoded] at unread
        cases unread
        exact .inl ⟨inner, rfl, rfl⟩
    | ok found =>
        rw [Extension.Announcement.decode, decoded] at unread
        cases unread
  · obtain ⟨dictionary, behind, read, rfl⟩ := Extension.Announcement.decode_eq_ok_iff.mp decoded
    rcases refused with ⟨cause, broken, rfl⟩ |
      ⟨terms, agreed, ⟨cause, invalid, _⟩ | ⟨table, _, impossible⟩⟩
    · exact .inr ⟨(dictionary, behind), cause, read, broken, rfl⟩
    · rw [Extension.Announcement.create?_of_terms agreed] at invalid
      cases invalid
    · cases impossible

/-- What is wrong with an announcement that can be read is told as a breach of the rules. -/
theorem kind_of_terms {announcement : Extension.Announcement}
    {cause : Extension.Announcement.Error} (refused : announcement.terms = .error cause) :
    cause.toFailure.isDecode = false ∧ cause.toFailure.isMetadata = true := by
  simp only [Extension.Announcement.terms] at refused
  split at refused
  · cases refused
    exact ⟨rfl, rfl⟩
  · split at refused
    · cases refused
      exact ⟨rfl, rfl⟩
    · split at refused
      · cases refused
      · cases refused
        exact ⟨rfl, rfl⟩

/-- An announcement that is refused is told to be unreadable exactly if it holds no dictionary, and to
break the rules exactly if it does. -/
theorem kind_of_negotiate (refused : negotiate payload = .error fault) :
    (fault.toFailure.isDecode = true ↔ ∃ cause, decodeDict payload = .error cause) ∧
      (fault.toFailure.isMetadata = true ↔ ∃ found, decodeDict payload = .ok found) := by
  rcases negotiate_error_cases refused with ⟨cause, unread, rfl⟩ | ⟨found, cause, read, broken, rfl⟩
  · simp [unread, Fault.toFailure, Extension.Announcement.Error.toFailure]
  · simp [read, Fault.toFailure, kind_of_terms broken]

theorem store_iff (holds : table.Holds table.metadataSize content) :
    store table payload = .ok (index, after) ↔
      ∃ data status, Sends payload table index data ∧ table.insert index data = .ok (status, after) := by
  rw [store_eq_ok_iff]
  refine ⟨fun given => ?_, fun given => ?_⟩
  · obtain ⟨message, status, decoded, type, piece, total, inserted⟩ := given
    obtain ⟨dictionary, read, saidType, saidPiece, saidTotal⟩ :=
      Extension.MetadataMessage.decode_eq_ok_iff.mp decoded
    obtain ⟨inside, exactSize⟩ := holds.insert_iff.mp ⟨status, after, inserted⟩
    rw [Piece.sizeAt_eq] at exactSize
    rw [type] at saidType
    rw [← saidPiece] at piece
    rw [← saidTotal] at total
    exact ⟨message.data, status, ⟨dictionary, read, saidType, piece, total, inside, exactSize⟩,
      inserted⟩
  · obtain ⟨data, status, ⟨dictionary, read, saidType, piece, total, _, _⟩, inserted⟩ := given
    exact ⟨⟨Extension.dataType, dictionary.getInt? "piece", dictionary.getInt? "total_size", data⟩,
      status, Extension.MetadataMessage.decode_eq_ok_iff.mpr ⟨dictionary, read, saidType, rfl, rfl⟩,
      rfl, piece, total, inserted⟩

/-- A table with a piece put into it: one slot is changed, and the filled slots are counted. -/
structure Stores (before : Piece.Table) (index : Nat) (data : Bytes) (after : Piece.Table) : Prop where
  sameSize : after.metadataSize = before.metadataSize
  slots : after.slots = before.slots.set index (some data)
  counted : after.received = after.slots.countP Option.isSome

theorem exists_store (holds : table.Holds table.metadataSize content)
    (sends : Sends payload table index data) :
    ∃ after, store table payload = .ok (index, after) ∧ Stores table index data after := by
  obtain ⟨status, after, inserted⟩ := holds.insert_iff.mpr sends.fits
  obtain ⟨_, sameSize, slots⟩ := holds.insert_eq inserted
  obtain ⟨_, _, holdsAfter⟩ := holds.insert inserted
  exact ⟨after, (store_iff holds).mpr ⟨data, status, sends, inserted⟩, sameSize, slots,
    holdsAfter.received⟩

/-! ### What comes of a payload -/

variable {exchange : Exchange}

theorem acceptAnnouncement_of_offers (tableless : exchange.table = none)
    (offers : Offers payload metadataId metadataSize) :
    exchange.acceptAnnouncement payload =
      ({ exchange with
          table := some (Piece.Table.empty metadataSize), peerMetadataId := some metadataId },
        .report (.extendedOk metadataSize (Piece.count metadataSize)) ::
          requests metadataId (Piece.count metadataSize)) := by
  have negotiated := negotiate_iff.mpr ⟨offers, rfl⟩
  have pieces := (Piece.Table.holds_empty metadataSize).pieceCount
  simp only [acceptAnnouncement, tableless, negotiated, pieces]

theorem acceptAnnouncement_of_not_offers (tableless : exchange.table = none)
    (nothing : ∀ metadataId metadataSize, ¬ Offers payload metadataId metadataSize) :
    ∃ fault, negotiate payload = .error fault ∧
      exchange.acceptAnnouncement payload = exchange.fail fault := by
  cases negotiated : negotiate payload with
  | error fault => exact ⟨fault, rfl, by simp only [acceptAnnouncement, tableless, negotiated]⟩
  | ok agreed => exact absurd (negotiate_iff.mp negotiated).1 (nothing _ _)

theorem acceptMetadataMessage_of_sends (held : exchange.table = some table)
    (holds : table.Holds table.metadataSize content) (sends : Sends payload table index data) :
    ∃ stored, Stores table index data stored ∧
      exchange.acceptMetadataMessage payload =
        let event := Action.report (.pieceReceived index stored.received table.pieceCount)
        if ∀ slot ∈ stored.slots, slot.isSome = true then
          (exchange.finish, [event, .report (closingEvent (exchange.verdict stored))])
        else ({ exchange with table := some stored }, [event]) := by
  obtain ⟨stored, stores, put⟩ := exists_store holds sends
  have pieces : stored.pieceCount = table.pieceCount := by
    rw [Piece.Table.pieceCount, put.slots, List.length_set, Piece.Table.pieceCount]
  refine ⟨stored, put, ?_⟩
  simp only [acceptMetadataMessage, held, stores, conclude_eq, pieces,
    Piece.Table.isComplete_iff_of_counted put.counted]

theorem acceptMetadataMessage_of_not_sends (held : exchange.table = some table)
    (holds : table.Holds table.metadataSize content)
    (nothing : ∀ index data, ¬ Sends payload table index data) :
    ∃ fault, exchange.acceptMetadataMessage payload = exchange.fail fault := by
  cases stores : store table payload with
  | error fault => exact ⟨fault, by simp only [acceptMetadataMessage, held, stores]⟩
  | ok result =>
      obtain ⟨data, _, sends, _⟩ := (store_iff holds).mp stores
      exact absurd sends (nothing _ data)

end Exchange

end MetaExchange
