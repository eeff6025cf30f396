import MetaExchange.Proofs.Machine.History
import MetaExchange.Proofs.Machine.HonestPeer

namespace MetaExchange.Machine

open Exchange (Account Action)

/-- A message that says nothing to an exchange that has told this much: noise, or one more announcement,
whatever is in it. -/
inductive Irrelevant (told : List Action) : Bytes → Prop where
  | noise (said : PeerSide.Noise) : Irrelevant told said.bytes
  | announcedAgain {payload : Bytes} {size pieceCount : Nat}
      (agreed : .report (.extendedOk size pieceCount) ∈ told)
      (short : 2 + payload.length ≤ Message.maxLength) :
      Irrelevant told (Message.extended Extension.announcementId payload)

variable {peerId : PeerId} {exchange : Exchange} {told : List Action} {message : Bytes}

theorem exists_table_of_agreed (account : Account told exchange)
    (ongoing : exchange.isFinished = false) {size pieceCount : Nat}
    (agreed : .report (.extendedOk size pieceCount) ∈ told) : ∃ table, exchange.table = some table := by
  obtain ⟨stage, _, fits, rfl⟩ := account.exists_stage ongoing
  obtain ⟨_, _, _, rfl, _⟩ := stage.eq_collecting_of_mem_actions agreed
  obtain ⟨_, _, table, _, held, _⟩ := fits
  exact ⟨table, held⟩

theorem feed_irrelevant (peerId : PeerId) (account : Account told exchange)
    (awaited : exchange.awaiting = .messageLength) (irrelevant : Irrelevant told message) :
    (idle peerId exchange).feed message = (idle peerId exchange, []) := by
  cases irrelevant with
  | noise said => exact feed_noise peerId awaited said
  | @announcedAgain payload size pieceCount agreed short =>
      obtain ⟨table, held⟩ :=
        exists_table_of_agreed account (Exchange.isFinished_of_awaiting awaited) agreed
      rw [feed_extended awaited short, Exchange.acceptBody_announcement awaited]
      simp only [Exchange.acceptAnnouncement, held]

/-- A message that does not matter may be left out at any boundary between messages: however the two
streams are cut into reads, the same actions come of them, and the same machine. -/
theorem feedAll_irrelevant (infoHash : InfoHash) (peerId : PeerId) (verify : Bool)
    {before message behind : Bytes} {reads shorter : List Bytes}
    (awaited : ((fresh infoHash peerId verify).feed before).1.exchange.awaiting = .messageLength)
    (nothing : ((fresh infoHash peerId verify).feed before).1.backlog.toList = [])
    (irrelevant : Irrelevant ((fresh infoHash peerId verify).feed before).2 message)
    (whole : reads.flatten = before ++ message ++ behind) (rest : shorter.flatten = before ++ behind) :
    (fresh infoHash peerId verify).feedAll reads =
      (fresh infoHash peerId verify).feedAll shorter := by
  have account := account_feed infoHash peerId verify before
  have ignored : ((fresh infoHash peerId verify).feed before).1.feed message =
      (((fresh infoHash peerId verify).feed before).1, []) := by
    rw [eq_idle nothing]
    exact feed_irrelevant _ account awaited irrelevant
  have unheard : (fresh infoHash peerId verify).feed (before ++ message) =
      (fresh infoHash peerId verify).feed before := by
    rw [feed_append, ignored, List.append_nil]
  rw [feedAll_fresh, feedAll_fresh, whole, rest, feed_append _ (before ++ message), unheard,
    feed_append]

/-- The terms are agreed on, and then the peer starts an announcement that it does not finish. -/
theorem feedAll_irrelevant_announcedAgain :
    let metadata : Bytes := [0]
    let machine := fresh (Sha1.digest metadata) PeerSide.peerId true
    let before := PeerSide.opening (Sha1.digest metadata) PeerSide.metadataId metadata []
    let message := Message.extended Extension.announcementId (Bytes.ofString "d1:m")
    let piece := PeerSide.dataPiece metadata 0
    (machine.feed before).1.exchange.awaiting = .messageLength ∧
      (machine.feed before).1.backlog.toList = [] ∧ Irrelevant (machine.feed before).2 message ∧
      machine.feedAll [before, message, piece] = machine.feedAll [before ++ piece] := by
  intro metadata machine before message piece
  have opened : ∃ next, machine.feed before =
      (idle PeerSide.peerId next, Exchange.greeting PeerSide.peerId ++
        Exchange.agreement ⟨PeerSide.metadataId, 1⟩) ∧ Hearing metadata [] next :=
    feed_opening PeerSide.peerId true _ [] (by decide) (by decide) (by decide)
  obtain ⟨next, fed, hearing⟩ := opened
  have agreed : .report (.extendedOk 1 (Piece.count 1)) ∈ (machine.feed before).2 := by
    rw [fed]
    simp [Exchange.agreement]
  have irrelevant : Irrelevant (machine.feed before).2 message :=
    .announcedAgain agreed (by decide)
  have awaited : (machine.feed before).1.exchange.awaiting = .messageLength := by
    rw [fed]
    exact hearing.awaited
  have nothing : (machine.feed before).1.backlog.toList = [] := by
    rw [fed]
    rfl
  have whole : [before, message, piece].flatten = before ++ message ++ piece := by simp
  have rest : [before ++ piece].flatten = before ++ piece := List.flatten_singleton
  exact ⟨awaited, nothing, irrelevant,
    feedAll_irrelevant _ _ _ awaited nothing irrelevant whole rest⟩

end MetaExchange.Machine
