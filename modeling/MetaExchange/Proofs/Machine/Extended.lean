import MetaExchange.Proofs.Exchange.Payloads
import MetaExchange.Proofs.Machine.HonestPeer

namespace MetaExchange.Machine

open Exchange (Account Action Offers Sends Stores closingEvent)

variable {before : Machine} {reads : List Bytes} {number : UInt8} {payload : Bytes}
  {table : Piece.Table}

/-- What a machine can come to, whatever it was fed. -/
def Reachable (machine : Machine) : Prop :=
  ∃ infoHash peerId verify reads, ((fresh infoHash peerId verify).feedAll reads).1 = machine

namespace Reachable

theorem settled (reachable : before.Reachable) : before.Settled := by
  obtain ⟨infoHash, peerId, verify, reads, rfl⟩ := reachable
  rw [feedAll_fresh]
  exact settled_feed _ _

theorem exists_account (reachable : before.Reachable) : ∃ told, Account told before.exchange := by
  obtain ⟨infoHash, peerId, verify, reads, rfl⟩ := reachable
  rw [feedAll_fresh]
  exact ⟨_, account_feed infoHash peerId verify reads.flatten⟩

theorem exists_holds (reachable : before.Reachable) (held : before.exchange.table = some table) :
    ∃ content, table.Holds table.metadataSize content := by
  obtain ⟨told, account⟩ := reachable.exists_account
  obtain ⟨stage, _, fits, _⟩ := account.exists_stage (account.isFinished_eq_false held)
  obtain ⟨_, _, _, content, _, _, holds, _⟩ := fits.eq_collecting held
  exact ⟨content, holds.size ▸ holds⟩

theorem peerMetadataId_eq_none (reachable : before.Reachable)
    (awaited : before.exchange.awaiting = .messageLength) (tableless : before.exchange.table = none) :
    before.exchange.peerMetadataId = none := by
  obtain ⟨told, account⟩ := reachable.exists_account
  obtain ⟨stage, _, fits, _⟩ := account.exists_stage (Exchange.isFinished_of_awaiting awaited)
  have among : before.exchange.awaiting.inMessages = true := by rw [awaited]; rfl
  obtain ⟨_, rfl⟩ := fits.eq_greeted among tableless
  exact fits.2.2

end Reachable

/-- A message does to the exchange what its body does, wherever its bytes are cut: some of them may have
waited already. -/
theorem feedAll_extended (reachable : before.Reachable)
    (awaited : before.exchange.awaiting = .messageLength)
    (short : 2 + payload.length ≤ Message.maxLength)
    (delivered : before.backlog.toList ++ reads.flatten = Message.extended number payload) :
    before.feedAll reads =
      (idle before.peerId
          (before.exchange.acceptBody (Message.Kind.extended.toByte :: number :: payload)).1,
        (before.exchange.acceptBody (Message.Kind.extended.toByte :: number :: payload)).2) := by
  have whole : before.feed reads.flatten =
      (idle before.peerId before.exchange).feed (Message.extended number payload) := by
    simp only [feed_eq, idle, delivered, Stream.Backlog.toList_empty, List.nil_append]
  rw [feedAll_eq_feed reachable.settled, whole, feed_extended awaited short]

/-- An announcement that offers terms is answered with them and with a request for each piece, in order,
and the machine holds an empty table. Any other announcement ends the exchange: nothing is sent, and the
only report says whether it could not be read or broke the rules. -/
theorem feedAll_announcement_exact (reachable : before.Reachable)
    (awaited : before.exchange.awaiting = .messageLength) (tableless : before.exchange.table = none)
    (short : 2 + payload.length ≤ Message.maxLength)
    (delivered : before.backlog.toList ++ reads.flatten =
      Message.extended Extension.announcementId payload) :
    (∀ metadataId metadataSize, Offers payload metadataId metadataSize →
      before.feedAll reads =
        (idle before.peerId
          { before.exchange with
            table := some (Piece.Table.empty metadataSize), peerMetadataId := some metadataId },
          .report (.extendedOk metadataSize (Piece.count metadataSize)) ::
            (List.range (Piece.count metadataSize)).map fun index =>
              .send (Extension.pieceRequest metadataId (UInt32.ofNat index)))) ∧
    ((∀ metadataId metadataSize, ¬ Offers payload metadataId metadataSize) →
      ∃ fault, before.feedAll reads =
          (idle before.peerId before.exchange.finish, [.report (.error fault)]) ∧
        (before.feedAll reads).1.exchange.peerMetadataId = none ∧
        (fault.toFailure.isDecode = true ↔ ∃ cause, Bencode.decodeDict payload = .error cause) ∧
        (fault.toFailure.isMetadata = true ↔ ∃ found, Bencode.decodeDict payload = .ok found)) := by
  have fed := feedAll_extended reachable awaited short delivered
  rw [Exchange.acceptBody_announcement awaited] at fed
  refine ⟨fun metadataId metadataSize offers => ?_, fun nothing => ?_⟩
  · rw [fed, Exchange.acceptAnnouncement_of_offers tableless offers]
    rfl
  · obtain ⟨fault, refused, failed⟩ := Exchange.acceptAnnouncement_of_not_offers tableless nothing
    obtain ⟨unread, broken⟩ := Exchange.kind_of_negotiate refused
    rw [failed] at fed
    refine ⟨fault, fed, ?_, unread, broken⟩
    rw [fed]
    exact reachable.peerMetadataId_eq_none awaited tableless

/-- An announcement that is cut within its length. -/
theorem feedAll_announcement_exact_cut :
    let infoHash : InfoHash := ⟨List.replicate 20 0xab, rfl⟩
    let before := ((fresh infoHash PeerSide.peerId true).feedAll [PeerSide.handshake infoHash]).1
    let payload := (Bencode.Value.dict (PeerSide.announcementEntries
      (Int64.ofNat PeerSide.metadataId.toNat) (Int64.ofNat 1))).encode
    let message := Message.extended Extension.announcementId payload
    let reads := [message.take 3, message.drop 3]
    before.Reachable ∧ before.exchange.awaiting = .messageLength ∧ before.exchange.table = none ∧
      2 + payload.length ≤ Message.maxLength ∧ before.backlog.toList ++ reads.flatten = message ∧
      Offers payload PeerSide.metadataId 1 ∧
      (before.feedAll reads).2 =
        [.report (.extendedOk 1 1), .send (Extension.pieceRequest PeerSide.metadataId 0)] := by
  intro infoHash before payload message reads
  have announced : Handshake.announcesExtensions Handshake.ourReserved = true := by decide
  have greeted : before = idle PeerSide.peerId
      { Exchange.fresh infoHash true with awaiting := .messageLength } := by
    have fed : (fresh infoHash PeerSide.peerId true).feed (PeerSide.handshake infoHash) = _ :=
      feed_greeting rfl rfl announced
    simp only [before, feedAll_fresh, List.flatten_singleton, fed]
  have reachable : before.Reachable := ⟨infoHash, PeerSide.peerId, true, _, rfl⟩
  have awaited : before.exchange.awaiting = .messageLength := by rw [greeted]; rfl
  have tableless : before.exchange.table = none := by rw [greeted]; rfl
  have short : 2 + payload.length ≤ Message.maxLength := by
    have size := PeerSide.length_encode_announcementEntries_le
      (Int64.ofNat PeerSide.metadataId.toNat) (Int64.ofNat 1)
    simp only [payload, Message.maxLength]
    omega
  have delivered : before.backlog.toList ++ reads.flatten = message := by
    rw [greeted]
    simp [idle, reads]
  have offers : Offers payload PeerSide.metadataId 1 :=
    offers_announcement (by decide) (by decide) (by decide)
  have answer :=
    (feedAll_announcement_exact reachable awaited tableless short delivered).1 _ _ offers
  exact ⟨reachable, awaited, tableless, short, delivered, offers, by rw [answer]; rfl⟩

/-- A message that sends a piece is reported, and its piece is put into the table; with the last slot
filled, the exchange ends with a verdict. Any other message about pieces ends the exchange with a fault,
and with nothing else. -/
theorem feedAll_piece_exact (reachable : before.Reachable)
    (awaited : before.exchange.awaiting = .messageLength) (held : before.exchange.table = some table)
    (numbered : number ≠ 0) (short : 2 + payload.length ≤ Message.maxLength)
    (delivered : before.backlog.toList ++ reads.flatten = Message.extended number payload) :
    (∀ index data, Sends payload table index data →
      ∃ stored, Stores table index data stored ∧
        before.feedAll reads =
          let event := Action.report (.pieceReceived index stored.received table.pieceCount)
          if ∀ slot ∈ stored.slots, slot.isSome = true then
            (idle before.peerId before.exchange.finish,
              [event, .report (closingEvent (before.exchange.verdict stored))])
          else (idle before.peerId { before.exchange with table := some stored }, [event])) ∧
    ((∀ index data, ¬ Sends payload table index data) →
      ∃ fault, before.feedAll reads =
        (idle before.peerId before.exchange.finish, [.report (.error fault)])) := by
  obtain ⟨content, holds⟩ := reachable.exists_holds held
  have fed := feedAll_extended reachable awaited short delivered
  rw [Exchange.acceptBody_of_numbered awaited numbered] at fed
  refine ⟨fun index data sends => ?_, fun nothing => ?_⟩
  · obtain ⟨stored, stores, taken⟩ := Exchange.acceptMetadataMessage_of_sends held holds sends
    refine ⟨stored, stores, ?_⟩
    rw [fed, taken]
    dsimp only
    split <;> rfl
  · obtain ⟨fault, failed⟩ := Exchange.acceptMetadataMessage_of_not_sends held holds nothing
    rw [failed] at fed
    exact ⟨fault, fed⟩

/-- The only piece of one byte of metadata. -/
theorem feedAll_piece_exact_onlyPiece :
    let metadata : Bytes := [0]
    let before := ((fresh (Sha1.digest metadata) PeerSide.peerId true).feedAll
      [PeerSide.opening (Sha1.digest metadata) PeerSide.metadataId metadata []]).1
    let payload := piecePayload metadata 0
    let reads := [PeerSide.dataPiece metadata 0]
    ∃ table, before.Reachable ∧ before.exchange.awaiting = .messageLength ∧
      before.exchange.table = some table ∧ (1 : UInt8) ≠ 0 ∧ 2 + payload.length ≤ Message.maxLength ∧
      before.backlog.toList ++ reads.flatten = Message.extended 1 payload ∧
      Sends payload table 0 metadata ∧
      ∃ verdict, before.feedAll reads = (idle before.peerId before.exchange.finish,
        [.report (.pieceReceived 0 1 1), .report (closingEvent verdict)]) := by
  intro metadata before payload reads
  have opened : ∃ next, (fresh (Sha1.digest metadata) PeerSide.peerId true).feed
      (PeerSide.opening (Sha1.digest metadata) PeerSide.metadataId metadata []) =
        (idle PeerSide.peerId next, Exchange.greeting PeerSide.peerId ++
          Exchange.agreement ⟨PeerSide.metadataId, 1⟩) ∧ Hearing metadata [] next :=
    feed_opening PeerSide.peerId true _ [] (by decide) (by decide) (by decide)
  obtain ⟨next, fed, hearing⟩ := opened
  obtain ⟨table, heldNext, holds⟩ := hearing.table
  have hears : before = idle PeerSide.peerId next := by
    simp only [before, feedAll_fresh, List.flatten_singleton, fed]
  have reachable : before.Reachable := ⟨_, PeerSide.peerId, true, _, rfl⟩
  have awaited : before.exchange.awaiting = .messageLength := by rw [hears]; exact hearing.awaited
  have held : before.exchange.table = some table := by rw [hears]; exact heldNext
  have numbered : (1 : UInt8) ≠ 0 := by decide
  have short : 2 + payload.length ≤ Message.maxLength := by
    have small := length_piecePayload_le metadata 0
    simp only [payload, Message.maxLength, Piece.fullSize] at small ⊢
    omega
  have delivered : before.backlog.toList ++ reads.flatten = Message.extended 1 payload := by
    rw [hears]
    simp only [idle, reads, Stream.Backlog.toList_empty, List.nil_append, List.flatten_singleton]
    exact dataPiece_eq (by decide) 0
  have pieces : table.pieceCount = 1 := by
    have one : Piece.count 1 = 1 := by decide
    exact holds.pieceCount.trans one
  have sends : Sends payload table 0 metadata :=
    sends_piecePayload (by decide) (by decide) holds.size holds.pieceCount
  obtain ⟨stored, stores, answer⟩ :=
    (feedAll_piece_exact reachable awaited held numbered short delivered).1 0 metadata sends
  have slots : stored.slots = [some metadata] := by
    obtain ⟨slot, only⟩ := List.length_eq_one_iff.mp pieces
    rw [stores.slots, only]
    rfl
  have counted : stored.received = 1 := by
    rw [stores.counted, slots]
    rfl
  have filled : ∀ slot ∈ stored.slots, slot.isSome = true := by simp [slots]
  rw [if_pos filled, counted, pieces] at answer
  exact ⟨table, reachable, awaited, held, numbered, short, delivered, sends, _, answer⟩

end MetaExchange.Machine
