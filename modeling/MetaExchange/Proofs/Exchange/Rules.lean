import MetaExchange.Proofs.Exchange.Step
import MetaExchange.Proofs.Outcome
import MetaExchange.Proofs.Piece.Content

namespace MetaExchange

/-- Terms name a number that is not that of announcements, and a size within the limit. -/
theorem Extension.Announcement.terms_eq_ok_iff {announcement : Announcement} {terms : Terms} :
    announcement.terms = .ok terms ↔
      ∃ id size : Int64, announcement.metadataId = some id ∧ announcement.metadataSize = some size ∧
        (1 ≤ id.toInt ∧ id.toInt < 256) ∧
        (1 ≤ size.toInt ∧ size.toInt ≤ (Piece.maxMetadataSize : Int)) ∧
        terms = ⟨UInt8.ofNat id.toInt.toNat, size.toInt.toNat⟩ := by
  unfold Announcement.terms
  cases announcement.metadataId with
  | none => simp
  | some id =>
      cases announcement.metadataSize with
      | none => simp
      | some size =>
          dsimp only
          split
          · next valid => simp [valid, eq_comm]
          · next invalid =>
              constructor
              · intro impossible
                cases impossible
              · intro given
                obtain ⟨_, _, ⟨rfl⟩, ⟨rfl⟩, validId, validSize, _⟩ := given
                exact absurd ⟨validId, validSize⟩ invalid

/-- Terms within the limits of an announcement are within those of a table. -/
theorem Extension.Announcement.create?_of_terms {announcement : Announcement} {terms : Terms}
    (agreed : announcement.terms = .ok terms) :
    Piece.Table.create? terms.metadataSize = .ok (Piece.Table.empty terms.metadataSize) := by
  obtain ⟨id, size, _, _, _, validSize, rfl⟩ := terms_eq_ok_iff.mp agreed
  refine Piece.Table.create?_eq_ok_iff.mpr ⟨?_, ?_, rfl⟩
  · dsimp only
    omega
  · dsimp only
    omega

theorem Metadata.infoHash_of_ofBytes {infoHash : InfoHash} {data : Bytes} {metadata : Metadata}
    (read : Metadata.ofBytes infoHash data = .ok metadata) : metadata.infoHash = infoHash := by
  unfold Metadata.ofBytes at read
  split at read
  · cases read
  · unfold Metadata.ofInfo at read
    obtain ⟨_, _, read⟩ := Except.bind_eq_ok_iff.mp read
    obtain ⟨_, _, read⟩ := Except.bind_eq_ok_iff.mp read
    obtain ⟨_, _, read⟩ := Except.bind_eq_ok_iff.mp read
    split at read
    · cases read
    · cases read
      rfl

namespace Exchange

variable {payload : Bytes} {terms : Extension.Terms} {table after : Piece.Table} {index : Nat}
  {message : Extension.MetadataMessage} {fault : Fault}

theorem negotiate_eq_ok_iff :
    negotiate payload = .ok (terms, table) ↔
      ∃ announcement, Extension.Announcement.decode payload = .ok announcement ∧
        announcement.terms = .ok terms ∧ Piece.Table.create? terms.metadataSize = .ok table := by
  simp only [negotiate, Except.bind_eq_ok_iff, Except.mapError_eq_ok_iff, Except.pure_eq_ok_iff,
    Prod.mk.injEq]
  constructor
  · intro given
    obtain ⟨announcement, decoded, _, agreed, _, created, rfl, rfl⟩ := given
    exact ⟨announcement, decoded, agreed, created⟩
  · intro given
    obtain ⟨announcement, decoded, agreed, created⟩ := given
    exact ⟨announcement, decoded, terms, agreed, table, created, rfl, rfl⟩

/-- What is agreed on is within the limits, and the table starts without pieces. -/
theorem valid_of_negotiate (negotiated : negotiate payload = .ok (terms, table)) :
    terms.metadataId ≠ 0 ∧ 0 < terms.metadataSize ∧ terms.metadataSize ≤ Piece.maxMetadataSize ∧
      table.Holds terms.metadataSize fun _ => none := by
  obtain ⟨announcement, _, agreed, created⟩ := negotiate_eq_ok_iff.mp negotiated
  obtain ⟨positive, within, rfl⟩ := Piece.Table.create?_eq_ok_iff.mp created
  obtain ⟨id, size, _, _, validId, _, rfl⟩ := Extension.Announcement.terms_eq_ok_iff.mp agreed
  refine ⟨?_, positive, within, Piece.Table.holds_empty _⟩
  intro zero
  have value := congrArg UInt8.toNat zero
  simp only [UInt8.toNat_ofNat', UInt8.toNat_zero] at value
  omega

theorem checkType_eq_ok_iff {checked : Unit} :
    checkType message = .ok checked ↔ message.type = Extension.dataType := by
  unfold checkType
  split
  · next isData => simp [isData]
  · next notData => split <;> simp [notData]

theorem pieceIndex_eq_ok_iff :
    pieceIndex message = .ok index ↔
      ∃ number : Int64, message.piece = some number ∧ number.toInt = index := by
  unfold pieceIndex
  cases message.piece with
  | none => simp
  | some number =>
      simp only [Option.some.injEq, exists_eq_left']
      split
      · next negative =>
          constructor
          · intro impossible
            cases impossible
          · intro same
            omega
      · next nonnegative =>
          rw [Except.ok.injEq]
          omega

theorem checkTotalSize_eq_ok_iff {checked : Unit} :
    checkTotalSize table message = .ok checked ↔
      ∀ totalSize ∈ message.totalSize, totalSize.toInt = table.metadataSize := by
  unfold checkTotalSize
  cases message.totalSize with
  | none => simp
  | some totalSize =>
      dsimp only
      split <;> simp_all

theorem checkType_error_cases (refused : checkType message = .error fault) :
    fault = .pieceRejected message.piece ∨ fault = .unknownMessageType message.type := by
  unfold checkType at refused
  split at refused
  · cases refused
  · split at refused
    · cases refused
      exact .inl rfl
    · cases refused
      exact .inr rfl

theorem pieceIndex_error_cases (refused : pieceIndex message = .error fault) :
    fault = .pieceIndexMissing ∨ ∃ number, fault = .negativePieceIndex number := by
  unfold pieceIndex at refused
  split at refused
  · cases refused
    exact .inl rfl
  · split at refused
    · cases refused
      exact .inr ⟨_, rfl⟩
    · cases refused

theorem checkTotalSize_error_cases (refused : checkTotalSize table message = .error fault) :
    ∃ totalSize, fault = .totalSizeDiffers totalSize table.metadataSize := by
  unfold checkTotalSize at refused
  split at refused
  · cases refused
  · split at refused
    · cases refused
    · cases refused
      exact ⟨_, rfl⟩

/-- A piece is stored if its message says that it sends one, gives an index, does not contradict the
size that was agreed on, and the table takes it. -/
theorem store_eq_ok_iff :
    store table payload = .ok (index, after) ↔
      ∃ message status, Extension.MetadataMessage.decode payload = .ok message ∧
        message.type = Extension.dataType ∧
        (∃ number : Int64, message.piece = some number ∧ number.toInt = index) ∧
        (∀ totalSize ∈ message.totalSize, totalSize.toInt = table.metadataSize) ∧
        table.insert index message.data = .ok (status, after) := by
  simp only [store, Except.bind_eq_ok_iff, Except.mapError_eq_ok_iff, Except.pure_eq_ok_iff,
    Prod.mk.injEq, checkType_eq_ok_iff, pieceIndex_eq_ok_iff, checkTotalSize_eq_ok_iff]
  constructor
  · intro given
    obtain ⟨message, decoded, _, type, _, number, _, total, ⟨status, _⟩, inserted, rfl, rfl⟩ := given
    exact ⟨message, status, decoded, type, number, total, inserted⟩
  · intro given
    obtain ⟨message, status, decoded, type, number, total, inserted⟩ := given
    exact ⟨message, decoded, (), type, index, number, (), total, (status, after), inserted, rfl, rfl⟩

/-- Either the message cannot be read, or it breaks a rule: it sends no piece, gives no index, contradicts the
size that was agreed on, or sends what the table does not take. -/
theorem store_error_cases (refused : store table payload = .error fault) :
    (∃ cause, Extension.MetadataMessage.decode payload = .error cause ∧ fault = .metadataMessage cause) ∨
      ∃ message, Extension.MetadataMessage.decode payload = .ok message ∧
        ((fault = .pieceRejected message.piece ∨ fault = .unknownMessageType message.type) ∨
          (fault = .pieceIndexMissing ∨ ∃ number, fault = .negativePieceIndex number) ∨
          (∃ totalSize, fault = .totalSizeDiffers totalSize table.metadataSize) ∨
          ∃ index cause, table.insert index message.data = .error cause ∧ fault = .table cause) := by
  simp only [store, Except.bind_eq_error_iff, Except.mapError_eq_error_iff,
    Except.mapError_eq_ok_iff] at refused
  rcases refused with ⟨cause, unread, rfl⟩ | ⟨message, decoded, type | ⟨_, _, piece | ⟨index, _, total |
    ⟨_, _, ⟨cause, untaken, rfl⟩ | ⟨_, _, impossible⟩⟩⟩⟩⟩
  · exact .inl ⟨cause, unread, rfl⟩
  · exact .inr ⟨message, decoded, .inl (checkType_error_cases type)⟩
  · exact .inr ⟨message, decoded, .inr (.inl (pieceIndex_error_cases piece))⟩
  · exact .inr ⟨message, decoded, .inr (.inr (.inl (checkTotalSize_error_cases total)))⟩
  · exact .inr ⟨message, decoded, .inr (.inr (.inr ⟨index, cause, untaken, rfl⟩))⟩
  · cases impossible

/-- How complete data end an exchange that verifies them: their hash is looked at before they are read. -/
inductive Concluded (infoHash : InfoHash) (data : Bytes) : Event → Prop where
  | hashDiffers (differs : Sha1.digest data ≠ infoHash) :
      Concluded infoHash data (.error (.hashDiffers infoHash (Sha1.digest data)))
  | unreadable {cause : Metadata.Error} (same : Sha1.digest data = infoHash)
      (unread : Metadata.ofBytes infoHash data = .error cause) :
      Concluded infoHash data (.error (.metadata cause))
  | done {metadata : Metadata} (same : Sha1.digest data = infoHash)
      (read : Metadata.ofBytes infoHash data = .ok metadata) :
      Concluded infoHash data (.done metadata)

theorem concluded_verdict {exchange : Exchange} (verified : exchange.verify = true) {data : Bytes}
    (assembled : table.assemble = some data) :
    Concluded exchange.infoHash data (closingEvent (exchange.verdict table)) := by
  unfold verdict
  rw [assembled]
  dsimp only
  split
  · next differs => exact .hashDiffers differs.2
  · next same =>
      have same : Sha1.digest data = exchange.infoHash := by simpa [verified] using same
      cases read : Metadata.ofBytes exchange.infoHash data with
      | error cause => exact .unreadable same read
      | ok metadata => exact .done same read

end Exchange

end MetaExchange
