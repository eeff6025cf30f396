import MetaExchange.Proofs.Machine.Integrity

/-!
What a machine does that takes the data for granted. It takes every frame as one does that verifies them;
only where the last piece makes the data whole, and these have another hash, do the two say different
things.
-/

namespace MetaExchange

namespace Exchange

def unverified (exchange : Exchange) : Exchange := { exchange with verify := false }

variable {exchange next : Exchange} {frame : Bytes} {actions : List Action} {table : Piece.Table}

theorem Refuses.unverified {fault : Fault} (refuses : exchange.Refuses frame fault) :
    exchange.unverified.Refuses frame fault := by
  cases refuses with
  | handshake awaited unparsed => exact .handshake awaited unparsed
  | length awaited announced long => exact .length awaited announced long
  | number awaited => exact .number awaited
  | announcement awaited tableless refused => exact .announcement awaited tableless refused
  | tooEarly awaited tableless numbered => exact .tooEarly awaited tableless numbered
  | piece awaited held numbered refused => exact .piece awaited held numbered refused

theorem Ignores.unverified (ignores : exchange.Ignores frame) : exchange.unverified.Ignores frame := by
  cases ignores with
  | empty => exact .empty
  | otherKind other => exact .otherKind other
  | announcedAgain held => exact .announcedAgain held

/-- Whether the data are verified matters only to a step that completes the table. -/
theorem Step.unverified (step : exchange.Step frame next actions) :
    exchange.unverified.Step frame next.unverified actions ∨
      ∃ number payload before after index,
        frame = Message.Kind.extended.toByte :: number :: payload ∧ exchange.table = some before ∧
        store before payload = .ok (index, after) ∧ after.isComplete = true ∧
        next.isFinished = true ∧
        actions = [.report (.pieceReceived index after.received after.pieceCount),
          .report (closingEvent (exchange.verdict after))] ∧
        exchange.unverified.Step frame next.unverified
          [.report (.pieceReceived index after.received after.pieceCount),
            .report (closingEvent (exchange.unverified.verdict after))] := by
  cases step with
  | protocolLength awaited => exact .inl (.protocolLength awaited)
  | greeted awaited parsed => exact .inl (.greeted awaited parsed)
  | keptAlive awaited announced => exact .inl (.keptAlive awaited announced)
  | messageLength awaited announced positive short =>
      exact .inl (.messageLength awaited announced positive short)
  | ignored awaited ignores => exact .inl (.ignored awaited ignores.unverified)
  | agreed awaited tableless negotiated => exact .inl (.agreed awaited tableless negotiated)
  | stored awaited held numbered stores incomplete =>
      exact .inl (.stored awaited held numbered stores incomplete)
  | completed awaited held numbered stores complete =>
      exact .inr ⟨_, _, _, _, _, rfl, held, stores, complete, rfl, rfl,
        .completed awaited held numbered stores complete⟩
  | refused refuses => exact .inl (.refused refuses.unverified)

theorem verdict_of_assemble {data : Bytes} (assembled : table.assemble = some data) :
    exchange.verdict table =
      if exchange.verify ∧ Sha1.digest data ≠ exchange.infoHash then
        .error (.hashDiffers exchange.infoHash (Sha1.digest data))
      else (Metadata.ofBytes exchange.infoHash data).mapError .metadata := by
  simp only [verdict, assembled]

end Exchange

namespace Machine

open Exchange (Account Action Assembled Collects closingEvent frameHandler)

variable {infoHash : InfoHash} {history : List (Stream.Delivery Action)}
  {start last exchange next : Exchange} {frame : Bytes} {told actions : List Action}
  {content : Nat → Option Bytes}

/-- As long as the exchange goes on, the same frames lead to the same actions. -/
theorem run_unverified (run : frameHandler.Run start history last) :
    last.isFinished = false → frameHandler.Run start.unverified history last.unverified := by
  apply run.invariant
    (motive := fun past exchange =>
      exchange.isFinished = false → frameHandler.Run start.unverified past exchange.unverified)
  · exact fun _ => .refl start.unverified
  intro past exchange frame before demanded ongoing
  have step := Exchange.step_accept demanded
  rcases step.unverified with same | ⟨_, _, _, _, _, _, _, _, _, finished, _⟩
  · exact (before step.isFinished_eq_false).concat demanded same.accept_eq
  · exact absurd finished (ne_true_of_eq_false ongoing)

/-- What is told instead where the data are taken for granted: the same, or, if the frame makes data whole
that have another hash, what reading them gives. -/
theorem exists_step_unverified (account : Account told exchange)
    (collects : Collects history exchange content) (verified : exchange.verify = true)
    (step : exchange.Step frame next actions) :
    ∃ instead, exchange.unverified.Step frame next.unverified instead ∧
      (instead = actions ∨
        ∃ index pieceCount data, Assembled (history ++ [⟨frame, actions⟩]) pieceCount data ∧
          .report (.extendedOk data.length pieceCount) ∈ told ∧ Sha1.digest data ≠ exchange.infoHash ∧
          actions = [.report (.pieceReceived index pieceCount pieceCount),
            .report (.error (.hashDiffers exchange.infoHash (Sha1.digest data)))] ∧
          instead = [.report (.pieceReceived index pieceCount pieceCount),
            .report (closingEvent
              ((Metadata.ofBytes exchange.infoHash data).mapError .metadata))]) := by
  rcases step.unverified with same | ⟨number, payload, before, after, index, rfl, held, stores, complete,
    _, rfl, taken⟩
  · exact ⟨actions, same, .inl rfl⟩
  obtain ⟨peerId, terms, receipts, rfl, filled, pieces, sized, whole, assembled⟩ :=
    assembled_of_stores account step.isFinished_eq_false collects held stores complete number
      (exchange.verdict after)
  have checked : exchange.verdict after = _ := Exchange.verdict_of_assemble whole
  have unchecked : exchange.unverified.verdict after =
      (Metadata.ofBytes exchange.infoHash after.concatenation).mapError .metadata := by
    rw [Exchange.verdict_of_assemble whole]
    exact if_neg (by simp [Exchange.unverified])
  refine ⟨_, taken, ?_⟩
  by_cases same : Sha1.digest after.concatenation = exchange.infoHash
  · exact .inl (by rw [unchecked, checked, if_neg (by simp [same])])
  · refine .inr ⟨index, Piece.count terms.metadataSize, after.concatenation, assembled, ?_, same, ?_, ?_⟩
    · rw [sized]
      exact Exchange.Stage.agreed_mem_actions
    · rw [checked, if_pos ⟨verified, same⟩, filled, pieces]
      rfl
    · rw [unchecked, filled, pieces]

/-- The frames of a run are taken by an exchange that does not verify as well. -/
theorem exists_run_unverified
    (run : frameHandler.Run (.fresh infoHash true) history last) :
    ∃ other, frameHandler.Run (.fresh infoHash false) other last.unverified ∧
      other.flatMap (·.frame) = history.flatMap (·.frame) ∧
      (other = history ∨
        ∃ earlier frame index pieceCount data, Assembled history pieceCount data ∧
          .report (.extendedOk data.length pieceCount) ∈ earlier.flatMap (·.outputs) ∧
          Sha1.digest data ≠ infoHash ∧
          history = earlier ++ [⟨frame, [.report (.pieceReceived index pieceCount pieceCount),
            .report (.error (.hashDiffers infoHash (Sha1.digest data)))]⟩] ∧
          other = earlier ++ [⟨frame, [.report (.pieceReceived index pieceCount pieceCount),
            .report (closingEvent ((Metadata.ofBytes infoHash data).mapError .metadata))]⟩]) := by
  rcases List.eq_nil_or_concat' history with rfl | ⟨earlier, ⟨frame, actions⟩, rfl⟩
  · cases run
    exact ⟨[], .refl _, rfl, .inl rfl⟩
  obtain ⟨taker, before, after⟩ := run.split
  obtain ⟨sameHash, verified⟩ := identity_of_run before
  cases after with
  | deliver demanded onward =>
      cases onward
      have step : taker.Step frame (frameHandler.accept taker frame).1
          (frameHandler.accept taker frame).2 := Exchange.step_accept demanded
      have ongoing := step.isFinished_eq_false
      obtain ⟨content, collects⟩ := collects_of_run before ongoing
      obtain ⟨instead, taken, told⟩ := exists_step_unverified (account_of_run before) collects verified step
      refine ⟨_, (run_unverified before ongoing).concat demanded taken.accept_eq, by simp, ?_⟩
      rcases told with rfl | ⟨index, pieceCount, data, assembled, agreed, differs, actions, judged⟩
      · exact .inl rfl
      · have same : taker.infoHash = infoHash := sameHash
        rw [same] at differs actions judged
        rw [actions] at assembled ⊢
        subst judged
        exact .inr ⟨earlier, frame, index, pieceCount, data, assembled, agreed, differs, rfl, rfl⟩

/-- A machine that takes the data for granted awaits the same frames as one that verifies them, knows the
same number of the peer, holds the same pieces and keeps the same bytes back, after any reads. It tells the
same, unless the last piece makes data whole that have another hash: then that is what the one that
verifies tells last, and the other tells what the data say. -/
theorem feedAll_unverified (infoHash : InfoHash) (peerId : PeerId) (reads : List Bytes) :
    let machine := fresh infoHash peerId true
    let checked := machine.feedAll reads
    let unchecked := (fresh infoHash peerId false).feedAll reads
    unchecked.1.exchange.awaiting = checked.1.exchange.awaiting ∧
    unchecked.1.exchange.peerMetadataId = checked.1.exchange.peerMetadataId ∧
    unchecked.1.exchange.table = checked.1.exchange.table ∧
    unchecked.1.backlog = checked.1.backlog ∧
    (∀ metadata, .report (.done metadata) ∈ checked.2 → .report (.done metadata) ∈ unchecked.2) ∧
    (unchecked.2 = checked.2 ∨
      ∃ history before index pieceCount data,
        machine.History reads history ∧ Assembled history pieceCount data ∧
        .report (.extendedOk data.length pieceCount) ∈ before ∧ Sha1.digest data ≠ infoHash ∧
        checked.2 = before ++ [.report (.pieceReceived index pieceCount pieceCount),
          .report (.error (.hashDiffers infoHash (Sha1.digest data)))] ∧
        unchecked.2 = before ++ [.report (.pieceReceived index pieceCount pieceCount),
          .report (closingEvent ((Metadata.ofBytes infoHash data).mapError .metadata))]) := by
  intro machine checked unchecked
  obtain ⟨history, left, run, outputs, _, parts, stops⟩ :=
    Stream.FrameHandler.exists_run_drain frameHandler (Exchange.fresh infoHash true) reads.flatten
  obtain ⟨other, sameRun, sameFrames, told⟩ := exists_run_unverified run
  have drained := sameRun.drain_eq (sameFrames ▸ parts) stops
  have fed : unchecked = _ := (feedAll_fresh infoHash peerId false reads).trans (feed_eq _ _)
  have fedChecked : checked = _ := (feedAll_fresh infoHash peerId true reads).trans (feed_eq _ _)
  have recorded : machine.History reads history :=
    history_of_run (settled_fresh infoHash peerId true) run outputs parts stops
  have toldChecked : checked.2 = history.flatMap (·.outputs) := recorded.actions
  have toldUnchecked : unchecked.2 = other.flatMap (·.outputs) := by
    rw [fed]
    exact congrArg Stream.Drained.outputs drained
  have sameState : unchecked.1.exchange = checked.1.exchange.unverified := by
    rw [fed, fedChecked]
    exact congrArg Stream.Drained.state drained
  have sameRest : unchecked.1.backlog = checked.1.backlog := by
    rw [fed, fedChecked]
    exact congrArg (fun drained => Stream.Backlog.ofList drained.rest) drained
  refine ⟨by rw [sameState]; rfl, by rw [sameState]; rfl, by rw [sameState]; rfl, sameRest, ?_⟩
  rcases told with rfl | ⟨earlier, frame, index, pieceCount, data, assembled, agreed, differs, rfl, rfl⟩
  · have same : unchecked.2 = checked.2 := toldUnchecked.trans toldChecked.symm
    rw [same]
    exact ⟨fun _ reported => reported, .inl rfl⟩
  · rw [List.flatMap_append, List.flatMap_singleton] at toldChecked toldUnchecked
    refine ⟨?_, .inr ⟨_, _, index, pieceCount, data, recorded, assembled, agreed, differs, toldChecked,
      toldUnchecked⟩⟩
    intro metadata reported
    rw [toldChecked] at reported
    rw [toldUnchecked]
    exact List.mem_append_left _ (by simpa using reported)

end Machine

end MetaExchange
