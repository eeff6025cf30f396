import MetaExchange.Proofs.Exchange.Payloads
import MetaExchange.Proofs.InfoDict
import MetaExchange.Proofs.Machine.Boundary
import MetaExchange.Proofs.Machine.History
import MetaExchange.Proofs.PeerSide.Conversation
import MetaExchange.Proofs.PeerSide.Messages

namespace MetaExchange.Machine

open Exchange (Action)
open PeerSide (Noise Utterance indices speech opening)

variable {peerId : PeerId} {exchange : Exchange} {metadata : Bytes} {heard : List Nat}

theorem feed_noise (peerId : PeerId) (awaited : exchange.awaiting = .messageLength) (said : Noise) :
    (idle peerId exchange).feed said.bytes = (idle peerId exchange, []) := by
  cases said with
  | keepAlive => exact feed_keepAlive awaited
  | other kind content unrelated short =>
      rw [Noise.bytes, feed_frame awaited (List.cons_ne_nil _ _) short,
        Exchange.acceptBody_of_ne awaited unrelated]

theorem feed_noises (peerId : PeerId) (awaited : exchange.awaiting = .messageLength)
    (noises : List Noise) :
    (idle peerId exchange).feed (noises.flatMap Noise.bytes) = (idle peerId exchange, []) := by
  induction noises with
  | nil => exact feed_nil awaited
  | cons said rest ih => rw [List.flatMap_cons, feed_append, feed_noise peerId awaited, ih, List.nil_append]

/-- The pieces of the metadata that were heard. -/
def heardContent (metadata : Bytes) (heard : List Nat) (index : Nat) : Option Bytes :=
  if index ∈ heard then some (Piece.slice metadata index) else none

theorem heardContent_nil (metadata : Bytes) : heardContent metadata [] = fun _ => none := by
  funext index
  simp [heardContent]

theorem update_heardContent (metadata : Bytes) (heard : List Nat) (index : Nat) :
    Function.update (heardContent metadata heard) index (some (Piece.slice metadata index)) =
      heardContent metadata (heard ++ [index]) := by
  funext other
  by_cases same : other = index
  · rw [same, Function.update_self]
    simp [heardContent]
  · rw [Function.update_of_ne same]
    simp [heardContent, same]

/-- An exchange that awaits a message, and has heard some pieces of the metadata. -/
structure Hearing (metadata : Bytes) (heard : List Nat) (exchange : Exchange) : Prop where
  awaited : exchange.awaiting = .messageLength
  asked : exchange.infoHash = Sha1.digest metadata
  table : ∃ table, exchange.table = some table ∧
    table.Holds metadata.length (heardContent metadata heard)

theorem isComplete_iff_of_heard {table : Piece.Table}
    (holds : table.Holds metadata.length (heardContent metadata heard)) :
    table.isComplete = true ↔ ∀ index < Piece.count metadata.length, index ∈ heard := by
  rw [holds.isComplete_iff]
  simp [heardContent]

/-- Where all pieces were heard, they make up the metadata. -/
theorem concatenation_of_heard {table : Piece.Table}
    (holds : table.Holds metadata.length (heardContent metadata heard))
    (complete : table.isComplete = true) : table.concatenation = metadata := by
  rw [holds.concatenation]
  refine Eq.trans (List.flatMap_congr ?_) (Piece.flatMap_slice_count metadata)
  intro index member
  have known := (isComplete_iff_of_heard holds).mp complete index (List.mem_range.mp member)
  simp [heardContent, known]

def piecePayload (metadata : Bytes) (index : Nat) : Bytes :=
  (Bencode.Value.dict (PeerSide.pieceEntries Extension.dataType (Int64.ofNat index)
    (Int64.ofNat metadata.length))).encode ++ Piece.slice metadata index

theorem dataPiece_eq (within : metadata.length ≤ Piece.maxMetadataSize) (index : Nat) :
    PeerSide.dataPiece metadata index = Message.extended 1 (piecePayload metadata index) :=
  PeerSide.pieceMessage_eq _ _ (Nat.lt_of_le_of_lt within (by decide)) _

theorem length_piecePayload_le (metadata : Bytes) (index : Nat) :
    (piecePayload metadata index).length ≤ 154 + Piece.fullSize := by
  rw [piecePayload, List.length_append]
  exact Nat.add_le_add (PeerSide.length_encode_pieceEntries_le _ _ _) (List.length_take_le _ _)

theorem sends_piecePayload {table : Piece.Table} {index : Nat}
    (within : metadata.length ≤ Piece.maxMetadataSize) (inside : index < Piece.count metadata.length)
    (size : table.metadataSize = metadata.length)
    (pieces : table.pieceCount = Piece.count metadata.length) :
    Exchange.Sends (piecePayload metadata index) table index (Piece.slice metadata index) := by
  have read := Bencode.decodeDict_encode (PeerSide.writable_pieceEntries Extension.dataType
    (Int64.ofNat index) (Int64.ofNat metadata.length)) (Piece.slice metadata index)
  have few := Piece.count_le within
  have indexFits : index < 2 ^ 63 := by omega
  have sizeFits : metadata.length < 2 ^ 63 := Nat.lt_of_le_of_lt within (by decide)
  refine ⟨_, read, rfl, ⟨_, rfl, Int64.toInt_ofNat_of_lt indexFits⟩, ?_, ?_, ?_⟩
  · intro totalSize same
    cases same
    rw [Int64.toInt_ofNat_of_lt sizeFits, size]
  · rw [pieces]
    exact inside
  · rw [Piece.length_slice, size, Piece.sizeAt_eq]

theorem store_piecePayload {table : Piece.Table} {index : Nat}
    (within : metadata.length ≤ Piece.maxMetadataSize) (inside : index < Piece.count metadata.length)
    (holds : table.Holds metadata.length (heardContent metadata heard)) :
    ∃ after, Exchange.store table (piecePayload metadata index) = .ok (index, after) ∧
      after.Holds metadata.length (heardContent metadata (heard ++ [index])) := by
  obtain ⟨status, after, inserted⟩ := holds.exists_insert inside (Piece.length_slice metadata index)
  obtain ⟨_, _, holdsAfter⟩ := holds.insert inserted
  rw [update_heardContent] at holdsAfter
  have sends := sends_piecePayload within inside holds.size holds.pieceCount
  rw [← holds.size] at holds
  exact ⟨after, (Exchange.store_iff holds).mpr ⟨_, status, sends, inserted⟩, holdsAfter⟩

/-- A piece that comes is stored, and ends the exchange if it was the last missing. -/
theorem feed_dataPiece {index : Nat} (peerId : PeerId) (hearing : Hearing metadata heard exchange)
    (within : metadata.length ≤ Piece.maxMetadataSize) (inside : index < Piece.count metadata.length) :
    ∃ after : Piece.Table, after.Holds metadata.length (heardContent metadata (heard ++ [index])) ∧
      (idle peerId exchange).feed (PeerSide.dataPiece metadata index) =
        let event := Action.report (.pieceReceived index after.received after.pieceCount)
        if after.isComplete then
          (idle peerId (exchange.conclude after).1, event :: (exchange.conclude after).2)
        else (idle peerId { exchange with table := some after }, [event]) := by
  obtain ⟨table, held, holds⟩ := hearing.table
  obtain ⟨after, stores, holdsAfter⟩ := store_piecePayload within inside holds
  have short : 2 + (piecePayload metadata index).length ≤ Message.maxLength := by
    have small := length_piecePayload_le metadata index
    simp only [Message.maxLength, Piece.fullSize] at small ⊢
    omega
  refine ⟨after, holdsAfter, ?_⟩
  rw [dataPiece_eq within, feed_extended hearing.awaited short,
    Exchange.acceptBody_of_numbered hearing.awaited (by decide)]
  unfold Exchange.acceptMetadataMessage
  simp only [held, stores]
  split <;> rfl

/-- As long as a piece is missing, what the peer says keeps the exchange going. -/
theorem feed_utterance (peerId : PeerId) (hearing : Hearing metadata heard exchange)
    (within : metadata.length ≤ Piece.maxMetadataSize)
    (utterance : Utterance (Piece.count metadata.length)) {missing : Nat}
    (lacking : missing < Piece.count metadata.length)
    (unheard : missing ∉ heard ++ indices [utterance]) :
    ∃ next actions, (idle peerId exchange).feed (utterance.bytes metadata) =
        (idle peerId next, actions) ∧
      Hearing metadata (heard ++ indices [utterance]) next ∧
      ∀ event, .report event ∈ actions → event.isTerminal = false := by
  cases utterance with
  | noise said =>
      refine ⟨exchange, [], feed_noise peerId hearing.awaited said, by simpa using hearing, ?_⟩
      intro event member
      cases member
  | piece index inside =>
      obtain ⟨after, holds, fed⟩ := feed_dataPiece peerId hearing within inside
      have incomplete : ¬ after.isComplete = true := fun complete =>
        unheard ((isComplete_iff_of_heard holds).mp complete missing lacking)
      rw [if_neg incomplete] at fed
      refine ⟨_, _, fed, ⟨hearing.awaited, hearing.asked, after, rfl, holds⟩, ?_⟩
      intro event member
      rw [Action.report.inj (List.mem_singleton.mp member)]
      rfl

theorem feed_speech (peerId : PeerId) (hearing : Hearing metadata heard exchange)
    (within : metadata.length ≤ Piece.maxMetadataSize)
    (utterances : List (Utterance (Piece.count metadata.length))) {missing : Nat}
    (lacking : missing < Piece.count metadata.length)
    (unheard : missing ∉ heard ++ indices utterances) :
    ∃ next actions, (idle peerId exchange).feed (speech metadata utterances) =
        (idle peerId next, actions) ∧
      Hearing metadata (heard ++ indices utterances) next ∧
      ∀ event, .report event ∈ actions → event.isTerminal = false := by
  induction utterances generalizing heard exchange with
  | nil =>
      refine ⟨exchange, [], feed_nil hearing.awaited, by simpa using hearing, ?_⟩
      intro event member
      cases member
  | cons utterance rest ih =>
      have parts : indices (utterance :: rest) = indices [utterance] ++ indices rest :=
        PeerSide.indices_append [utterance] rest
      rw [parts, ← List.append_assoc] at unheard ⊢
      obtain ⟨middle, first, fedFirst, hearingFirst, goesOn⟩ :=
        feed_utterance peerId hearing within utterance lacking
          fun member => unheard (List.mem_append_left _ member)
      obtain ⟨next, others, fedRest, hearingRest, goesOnRest⟩ := ih hearingFirst unheard
      refine ⟨next, first ++ others, ?_, hearingRest, ?_⟩
      · change (idle peerId exchange).feed (utterance.bytes metadata ++ speech metadata rest) = _
        rw [feed_append, fedFirst, fedRest]
      · intro event member
        rcases List.mem_append.mp member with early | late
        · exact goesOn event early
        · exact goesOnRest event late

/-- The last piece that was missing ends the exchange with the metadata. -/
theorem feed_dataPiece_last {index : Nat} {result : Metadata} (peerId : PeerId)
    (hearing : Hearing metadata heard exchange) (within : metadata.length ≤ Piece.maxMetadataSize)
    (inside : index < Piece.count metadata.length)
    (whole : ∀ other < Piece.count metadata.length, other ∈ heard ++ [index])
    (readable : Metadata.ofBytes (Sha1.digest metadata) metadata = .ok result) :
    (idle peerId exchange).feed (PeerSide.dataPiece metadata index) =
      (idle peerId exchange.finish,
        [.report (.pieceReceived index (Piece.count metadata.length) (Piece.count metadata.length)),
          .report (.done result)]) := by
  obtain ⟨after, holds, fed⟩ := feed_dataPiece peerId hearing within inside
  have complete := (isComplete_iff_of_heard holds).mpr whole
  have filled : after.received = after.pieceCount := by simpa [Piece.Table.isComplete] using complete
  have verdict : exchange.verdict after = .ok result := by
    unfold Exchange.verdict
    rw [holds.assemble complete, concatenation_of_heard holds complete]
    simp [hearing.asked, readable, Except.mapError_eq_ok_iff]
  rw [fed, if_pos complete, Exchange.conclude_eq, verdict, filled, holds.pieceCount]
  rfl

theorem offers_announcement {metadataId : UInt8} {metadataSize : Nat} (numbered : metadataId ≠ 0)
    (positive : 1 ≤ metadataSize) (within : metadataSize ≤ Piece.maxMetadataSize) :
    Exchange.Offers (Bencode.Value.dict (PeerSide.announcementEntries (Int64.ofNat metadataId.toNat)
      (Int64.ofNat metadataSize))).encode metadataId metadataSize := by
  have read := Bencode.decodeDict_encode (PeerSide.writable_announcementEntries
    (Int64.ofNat metadataId.toNat) (Int64.ofNat metadataSize)) []
  rw [List.append_nil] at read
  have byte := metadataId.toNat_lt
  have idFits : metadataId.toNat < 2 ^ 63 := by omega
  have sizeFits : metadataSize < 2 ^ 63 := Nat.lt_of_le_of_lt within (by decide)
  exact ⟨_, [], _, read, rfl, ⟨_, rfl, Int64.toInt_ofNat_of_lt idFits⟩, numbered,
    ⟨_, rfl, Int64.toInt_ofNat_of_lt sizeFits⟩, positive, within⟩

theorem feed_announcement (peerId : PeerId) {metadataId : UInt8}
    (awaited : exchange.awaiting = .messageLength) (tableless : exchange.table = none)
    (asked : exchange.infoHash = Sha1.digest metadata) (numbered : metadataId ≠ 0)
    (positive : 1 ≤ metadata.length) (within : metadata.length ≤ Piece.maxMetadataSize) :
    ∃ next, (idle peerId exchange).feed (PeerSide.announcement (Int64.ofNat metadataId.toNat)
        (Int64.ofNat metadata.length)) =
          (idle peerId next, Exchange.agreement ⟨metadataId, metadata.length⟩) ∧
      Hearing metadata [] next := by
  have offers := offers_announcement numbered positive within
  have size := PeerSide.length_encode_announcementEntries_le (Int64.ofNat metadataId.toNat)
    (Int64.ofNat metadata.length)
  rw [PeerSide.announcement_eq]
  generalize (Bencode.Value.dict (PeerSide.announcementEntries (Int64.ofNat metadataId.toNat)
    (Int64.ofNat metadata.length))).encode = payload at offers size ⊢
  have short : 2 + payload.length ≤ Message.maxLength := by
    simp only [Message.maxLength]
    omega
  have holds := Piece.Table.holds_empty metadata.length
  rw [← heardContent_nil metadata] at holds
  refine ⟨{ exchange with
    table := some (Piece.Table.empty metadata.length), peerMetadataId := some metadataId }, ?_,
    ⟨awaited, asked, _, rfl, holds⟩⟩
  change (idle peerId exchange).feed (Message.extended Extension.announcementId payload) = _
  rw [feed_extended awaited short, Exchange.acceptBody_announcement awaited,
    Exchange.acceptAnnouncement_of_offers tableless offers]
  rfl

theorem feed_opening (peerId : PeerId) (verify : Bool) (echoed : InfoHash) {metadataId : UInt8}
    (noise : List Noise) (numbered : metadataId ≠ 0) (positive : 1 ≤ metadata.length)
    (within : metadata.length ≤ Piece.maxMetadataSize) :
    ∃ next, (fresh (Sha1.digest metadata) peerId verify).feed
        (opening echoed metadataId metadata noise) =
          (idle peerId next, Exchange.greeting PeerSide.peerId ++
            Exchange.agreement ⟨metadataId, metadata.length⟩) ∧
      Hearing metadata [] next := by
  let greeted : Exchange :=
    { Exchange.fresh (Sha1.digest metadata) verify with awaiting := .messageLength }
  have announced : Handshake.announcesExtensions Handshake.ourReserved = true := by decide
  have fedGreeting : (fresh (Sha1.digest metadata) peerId verify).feed (PeerSide.handshake echoed) =
      (idle peerId greeted, Exchange.greeting PeerSide.peerId) :=
    feed_greeting rfl rfl announced
  have fedNoise : (idle peerId greeted).feed (noise.flatMap Noise.bytes) = (idle peerId greeted, []) :=
    feed_noises peerId rfl noise
  have awaited : greeted.awaiting = .messageLength := rfl
  obtain ⟨next, fedAnnouncement, hearing⟩ :=
    feed_announcement peerId awaited rfl rfl numbered positive within
  refine ⟨next, ?_, hearing⟩
  rw [opening, feed_append, feed_append, fedGreeting, fedNoise, fedAnnouncement, List.append_nil]

/-- A peer that sends every piece once at least, in any order, is understood: nothing ends the exchange before
the last piece that was missing, which is reported with all others and followed at once by the metadata.
What the peer says after it leads to nothing. -/
theorem feedAll_honest {metadata : Bytes} {result : Metadata} (echoed : InfoHash) (peerId : PeerId)
    (verify : Bool) {metadataId : UInt8} (noise : List Noise)
    (utterances : List (Utterance (Piece.count metadata.length))) (reads : List Bytes)
    (positive : 1 ≤ metadata.length) (within : metadata.length ≤ Piece.maxMetadataSize)
    (readable : Metadata.ofBytes (Sha1.digest metadata) metadata = .ok result)
    (numbered : metadataId ≠ 0)
    (complete : ∀ index < Piece.count metadata.length, index ∈ indices utterances)
    (spoken : reads.flatten =
      opening echoed metadataId metadata noise ++ speech metadata utterances) :
    let machine := fresh (Sha1.digest metadata) peerId verify
    let pieceCount := Piece.count metadata.length
    ∃ early index inside late,
      utterances = early ++ .piece index inside :: late ∧ index ∉ indices early ∧
      (∀ other < pieceCount, other ∈ indices early ∨ other = index) ∧
      let before := machine.feed (opening echoed metadataId metadata noise ++ speech metadata early)
      let ending := [.report (.pieceReceived index pieceCount pieceCount), .report (.done result)]
      (∀ event, .report event ∈ before.2 → event.isTerminal = false) ∧
      (before.1.feed (PeerSide.dataPiece metadata index)).2 = ending ∧
      (machine.feedAll reads).2 = before.2 ++ ending ∧
      (machine.feedAll reads).1.isFinished = true := by
  intro machine pieceCount
  obtain ⟨early, index, inside, late, rfl, missing, others⟩ :=
    PeerSide.exists_last_missing (Piece.count_pos positive) utterances complete
  obtain ⟨opened, fedOpening, hearing⟩ :=
    feed_opening peerId verify echoed noise numbered positive within
  obtain ⟨exchange, actions, fedEarly, hearingEarly, goesOn⟩ :=
    feed_speech peerId hearing within early inside missing
  have fedBefore : machine.feed (opening echoed metadataId metadata noise ++ speech metadata early) =
      (idle peerId exchange, Exchange.greeting PeerSide.peerId ++
        Exchange.agreement ⟨metadataId, metadata.length⟩ ++ actions) := by
    rw [feed_append, fedOpening, fedEarly]
  have whole : ∀ other < pieceCount, other ∈ indices early ++ [index] := by
    intro other lacking
    simpa using others other lacking
  have fedLast := feed_dataPiece_last peerId hearingEarly within inside whole readable
  have fedLate : (idle peerId exchange.finish).feed (speech metadata late) =
      (idle peerId exchange.finish, []) := feed_of_finished rfl _
  have fedAll : machine.feedAll reads = (idle peerId exchange.finish,
      Exchange.greeting PeerSide.peerId ++ Exchange.agreement ⟨metadataId, metadata.length⟩ ++
        actions ++ [.report (.pieceReceived index pieceCount pieceCount), .report (.done result)]) := by
    have stream : reads.flatten = (opening echoed metadataId metadata noise ++ speech metadata early) ++
        (PeerSide.dataPiece metadata index ++ speech metadata late) := by
      rw [spoken, PeerSide.speech_append]
      simp [speech, Utterance.bytes]
    rw [feedAll_fresh, stream, feed_append, fedBefore, feed_append, fedLast, fedLate]
    simp [pieceCount]
  refine ⟨early, index, inside, late, rfl, missing, others, ?_⟩
  dsimp only
  rw [fedBefore, fedAll]
  refine ⟨?_, congrArg Prod.snd fedLast, rfl, rfl⟩
  intro event member
  rcases List.mem_append.mp member with opened | said
  · apply Exchange.Stage.isTerminal_of_mem_actions
      (.collecting PeerSide.peerId ⟨metadataId, metadata.length⟩ [])
    simpa [Exchange.Stage.actions] using opened
  · exact goesOn event said

/-- Two pieces, the second first and repeated: the first is the last one missing. -/
theorem feedAll_honest_outOfOrder :
    ∃ (metadata : Bytes) (result : Metadata) (zero : 0 < Piece.count metadata.length)
      (one : 1 < Piece.count metadata.length),
      metadata = PeerSide.singleFile 1 (List.replicate 16400 0x5a) ∧ Piece.count metadata.length = 2 ∧
      1 ≤ metadata.length ∧ metadata.length ≤ Piece.maxMetadataSize ∧
      Metadata.ofBytes (Sha1.digest metadata) metadata = .ok result ∧ PeerSide.metadataId ≠ 0 ∧
      let echoed : InfoHash := ⟨List.replicate 20 0xab, rfl⟩
      let utterances := [.piece 1 one, .noise .keepAlive, .piece 1 one, .piece 0 zero]
      (∀ index < Piece.count metadata.length, index ∈ indices utterances) ∧
      [.report (.pieceReceived 0 2 2), .report (.done result)] <:+
        ((fresh (Sha1.digest metadata) PeerSide.peerId true).feedAll
          [opening echoed PeerSide.metadataId metadata [.keepAlive], speech metadata utterances]).2 := by
  obtain ⟨metadata, same, size, readable⟩ : ∃ metadata,
      metadata = PeerSide.singleFile 1 (List.replicate 16400 0x5a) ∧ metadata.length = 16469 ∧
        ∃ result, Metadata.ofBytes (Sha1.digest metadata) metadata = .ok result := by
    have many : (List.replicate 16400 (0x5a : UInt8)).length = 16400 := List.length_replicate
    generalize List.replicate 16400 (0x5a : UInt8) = hashes at many ⊢
    have short : hashes.length ≤ Numeral.maxUInt64 := by rw [many]; decide
    refine ⟨_, rfl, ?_, PeerSide.exists_ofBytes_singleFile _ (by decide) short⟩
    have whole := PeerSide.length_singleFile 1 hashes
    have known : (PeerSide.singleFile 1 []).length = 65 ∧ (Numeral.ofNat 16400).length = 5 := by
      decide +kernel
    rw [Bencode.encodeBytes, List.length_append, List.length_cons, many, known.1, known.2] at whole
    omega
  obtain ⟨result, taken⟩ := readable
  have pieces : Piece.count metadata.length = 2 := by rw [size]; rfl
  have zero : 0 < Piece.count metadata.length := by rw [pieces]; decide
  have one : 1 < Piece.count metadata.length := by rw [pieces]; decide
  have positive : 1 ≤ metadata.length := by rw [size]; decide
  have within : metadata.length ≤ Piece.maxMetadataSize := by rw [size]; decide
  have numbered : PeerSide.metadataId ≠ 0 := by decide
  refine ⟨metadata, result, zero, one, same, pieces, positive, within, taken, numbered, ?_⟩
  intro echoed utterances
  have complete : ∀ index < Piece.count metadata.length, index ∈ indices utterances := by
    intro index small
    rw [pieces] at small
    have which : index = 0 ∨ index = 1 := by omega
    rcases which with rfl | rfl <;> simp [utterances]
  refine ⟨complete, ?_⟩
  obtain ⟨early, index, inside, late, split, missing, others, _, _, told, _⟩ :=
    feedAll_honest echoed PeerSide.peerId true [.keepAlive] utterances
      [opening echoed PeerSide.metadataId metadata [.keepAlive], speech metadata utterances]
      positive within taken numbered complete (by simp)
  have last : index = 0 := by
    have order : [1, 1, 0] = indices early ++ index :: indices late := by
      rw [← PeerSide.indices_piece index inside, ← PeerSide.indices_append, ← split]
      rfl
    by_contra other
    have heard := (others 0 zero).resolve_right (Ne.symm other)
    rw [pieces] at inside
    obtain rfl : index = 1 := by omega
    cases before : indices early with
    | nil =>
        rw [before] at heard
        cases heard
    | cons first rest =>
        rw [before, List.cons_append, List.cons.injEq] at order
        rw [before, ← order.1] at missing
        exact missing List.mem_cons_self
  have ending : [Action.report (.pieceReceived index (Piece.count metadata.length)
      (Piece.count metadata.length)), .report (.done result)] =
      [.report (.pieceReceived 0 2 2), .report (.done result)] := by rw [last, pieces]
  rw [told, ending]
  exact List.suffix_append ..

end MetaExchange.Machine
