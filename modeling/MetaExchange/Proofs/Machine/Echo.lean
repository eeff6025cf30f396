import MetaExchange.Proofs.Machine.Greeting
import MetaExchange.Proofs.Machine.Integrity

namespace MetaExchange

theorem Exchange.Step.not_agreed_of_end {exchange next : Exchange} {frame : Bytes}
    {actions : List Action} (step : exchange.Step frame next actions)
    (ends : next.isFinished = true) (size pieceCount : Nat) :
    .report (.extendedOk size pieceCount) ∉ actions := by
  rcases step.end_cases ends with ⟨fault, failed⟩ | ⟨_, _, _, after, _, _, _, _, _, told⟩
  · simp [failed]
  · generalize exchange.verdict after = verdict at told
    cases verdict <;> simp [told, closingEvent]

namespace Machine

open Exchange (Action Assembled Concluded frameHandler)

variable {peerId : PeerId} {exchange last : Exchange} {infoHash : InfoHash}
  {history : List (Stream.Delivery Action)} {metadata : Metadata}

/-- Two greetings of one sender do the same, whatever follows them. -/
theorem feed_greeting_append_eq (awaited : exchange.awaiting = .handshakeLength)
    {first second : Handshake} (named : first.protocol = Handshake.protocolName)
    (alsoNamed : second.protocol = Handshake.protocolName)
    (announced : first.supportsExtensions = true) (alsoAnnounced : second.supportsExtensions = true)
    (sender : first.peerId = second.peerId) (stream : Bytes) :
    (idle peerId exchange).feed (first.serialize ++ stream) =
      (idle peerId exchange).feed (second.serialize ++ stream) := by
  rw [feed_append, feed_append, feed_greeting awaited named announced,
    feed_greeting awaited alsoNamed alsoAnnounced, sender]

/-- The pieces of an exchange that goes on never make the data whole. -/
theorem isFinished_of_assembled {verify : Bool}
    (run : frameHandler.Run (.fresh infoHash verify) history last) {size pieceCount : Nat} {data : Bytes}
    (agreed : .report (.extendedOk size pieceCount) ∈ history.flatMap (·.outputs))
    (assembled : Assembled history pieceCount data) : last.isFinished = true := by
  by_contra ongoing
  have ongoing : last.isFinished = false := by simpa using ongoing
  obtain ⟨content, collects⟩ := collects_of_run run ongoing
  exact not_assembled (account_of_run run) collects ongoing agreed assembled

/-- Data that are whole at the end of a run decide how it ends. -/
theorem exists_concluded_of_run (run : frameHandler.Run (.fresh infoHash true) history last)
    {size pieceCount : Nat} {data : Bytes}
    (agreed : .report (.extendedOk size pieceCount) ∈ history.flatMap (·.outputs))
    (assembled : Assembled history pieceCount data) :
    ∃ event, .report event ∈ history.flatMap (·.outputs) ∧ Concluded infoHash data event := by
  have finished := isFinished_of_assembled run agreed assembled
  obtain ⟨event, reported, terminal⟩ := (account_of_run run).isFinished_iff.mp finished
  obtain ⟨earlier, delivery, exchange, next, content, rfl, _, _, _, _, _, step, ends⟩ :=
    exists_ending_of_run run reported terminal
  have before : .report (.extendedOk size pieceCount) ∈ earlier.flatMap (·.outputs) := by
    rw [List.flatMap_append, List.mem_append, List.flatMap_singleton] at agreed
    exact agreed.resolve_right (step.not_agreed_of_end ends size pieceCount)
  obtain ⟨_, index, event, told, concluded⟩ := concluded_of_assembled run before assembled
  exact ⟨event, by simp [told], concluded⟩

/-- Metadata are reported exactly if the pieces stored last write data that have the hash and say just
these metadata. -/
theorem reports_done_iff_of_run (run : frameHandler.Run (.fresh infoHash true) history last) :
    .report (.done metadata) ∈ history.flatMap (·.outputs) ↔
      ∃ pieceCount data, .report (.extendedOk data.length pieceCount) ∈ history.flatMap (·.outputs) ∧
        Assembled history pieceCount data ∧ Sha1.digest data = infoHash ∧
        Metadata.ofBytes infoHash data = .ok metadata := by
  constructor
  · intro reported
    obtain ⟨size, pieceCount, data, before, behind, all, _, rfl, same, assembled, read⟩ :=
      data_of_done run reported
    exact ⟨pieceCount, data, by simp [all], assembled, same, read⟩
  · intro given
    obtain ⟨pieceCount, data, agreed, assembled, same, read⟩ := given
    obtain ⟨event, reported, concluded⟩ := exists_concluded_of_run run agreed assembled
    cases concluded with
    | hashDiffers differs => exact absurd same differs
    | unreadable _ unread =>
        rw [read] at unread
        cases unread
    | done _ readAgain =>
        rw [read] at readAgain
        cases readAgain
        exact reported

/-- Two greetings of one sender that name the protocol and announce the extension protocol lead to the same
machine and the same actions, whatever info hashes they echo, whatever their other capability bits are,
whatever follows them, and however both streams are cut. A machine that verifies takes metadata exactly if
the data that it got have the hash that was asked for, and say these metadata. -/
theorem feedAll_echo (infoHash : InfoHash) (peerId : PeerId) (verify : Bool) {first second : Handshake}
    (named : first.protocol = Bytes.ofString "BitTorrent protocol")
    (alsoNamed : second.protocol = Bytes.ofString "BitTorrent protocol")
    (announced : first.reserved.toBytes.getD 5 0 &&& 0x10 ≠ 0)
    (alsoAnnounced : second.reserved.toBytes.getD 5 0 &&& 0x10 ≠ 0)
    (sender : first.peerId = second.peerId) {stream : Bytes} {reads others : List Bytes}
    (fed : reads.flatten = first.serialize ++ stream)
    (alsoFed : others.flatten = second.serialize ++ stream) :
    let machine := fresh infoHash peerId verify
    machine.feedAll reads = machine.feedAll others ∧
    Exchange.greeting first.peerId <+: (machine.feedAll reads).2 ∧
    (verify = true → ∃ history, machine.History reads history ∧
      ∀ metadata, .report (.done metadata) ∈ (machine.feedAll reads).2 ↔
        ∃ pieceCount data, .report (.extendedOk data.length pieceCount) ∈ (machine.feedAll reads).2 ∧
          Assembled history pieceCount data ∧ Sha1.digest data = infoHash ∧
          Metadata.ofBytes infoHash data = .ok metadata) := by
  intro machine
  have supports : first.supportsExtensions = true := bne_iff_ne.mpr announced
  have alsoSupports : second.supportsExtensions = true := bne_iff_ne.mpr alsoAnnounced
  refine ⟨?_, ?_, ?_⟩
  · rw [feedAll_fresh, feedAll_fresh, fed, alsoFed]
    exact feed_greeting_append_eq rfl named alsoNamed supports alsoSupports sender stream
  · have greeted : machine.feed first.serialize = _ := feed_greeting rfl named supports
    rw [feedAll_fresh, fed, feed_append, greeted]
    exact List.prefix_append _ _
  · intro verifies
    obtain ⟨history, recorded⟩ := exists_history (settled_fresh infoHash peerId verify) reads
    refine ⟨history, recorded, fun metadata => ?_⟩
    have run := recorded.run
    rw [recorded.actions]
    subst verifies
    exact reports_done_iff_of_run run

/-- A peer that echoes another info hash, with all capability bits set, and one that echoes the right one. -/
theorem feedAll_echo_otherHash :
    let infoHash : InfoHash := ⟨List.replicate 20 0xab, rfl⟩
    let machine := fresh infoHash PeerSide.peerId true
    let first := Handshake.ours infoHash PeerSide.peerId
    let second : Handshake := ⟨Handshake.protocolName, ⟨List.replicate 8 0xff, rfl⟩,
      ⟨List.replicate 20 0xcd, rfl⟩, PeerSide.peerId⟩
    let stream := PeerSide.announcement 3 1
    first.reserved.toBytes.getD 5 0 &&& 0x10 ≠ 0 ∧ second.reserved.toBytes.getD 5 0 &&& 0x10 ≠ 0 ∧
      first.infoHash ≠ second.infoHash ∧ first.reserved ≠ second.reserved ∧
      machine.feedAll [first.serialize, stream] = machine.feedAll [second.serialize ++ stream] := by
  intro infoHash machine first second stream
  have announced : first.reserved.toBytes.getD 5 0 &&& 0x10 ≠ 0 := by decide
  have alsoAnnounced : second.reserved.toBytes.getD 5 0 &&& 0x10 ≠ 0 := by decide
  have fed : [first.serialize, stream].flatten = first.serialize ++ stream := by simp
  have alsoFed : [second.serialize ++ stream].flatten = second.serialize ++ stream := by simp
  exact ⟨announced, alsoAnnounced, by decide, by decide,
    (feedAll_echo infoHash PeerSide.peerId true rfl rfl announced alsoAnnounced rfl fed alsoFed).1⟩

end Machine

end MetaExchange
