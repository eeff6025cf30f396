import MetaExchange.Proofs.Machine.History

namespace MetaExchange.Machine

open Exchange (Account Action Assembled Collects Concluded Stage frameHandler)

variable {exchange : Exchange} {history : List (Stream.Delivery Action)}
  {content : Nat → Option Bytes} {told : List Action}

/-- A step that completes the table makes the data whole: they are the pieces that were stored last. -/
theorem assembled_of_stores {payload : Bytes} {before after : Piece.Table} {index : Nat}
    (account : Account told exchange) (ongoing : exchange.isFinished = false)
    (collects : Collects history exchange content) (held : exchange.table = some before)
    (stores : Exchange.store before payload = .ok (index, after)) (complete : after.isComplete = true)
    (number : UInt8) (verdict : Except Exchange.Fault Metadata) :
    ∃ peerId terms receipts, told = (Stage.collecting peerId terms receipts).actions ∧
      after.received = Piece.count terms.metadataSize ∧
      after.pieceCount = Piece.count terms.metadataSize ∧
      after.concatenation.length = terms.metadataSize ∧ after.assemble = some after.concatenation ∧
      Assembled (history ++ [⟨Message.Kind.extended.toByte :: number :: payload,
          [.report (.pieceReceived index after.received after.pieceCount),
            .report (Exchange.closingEvent verdict)]⟩])
        (Piece.count terms.metadataSize) after.concatenation := by
  obtain ⟨stage, _, fits, rfl⟩ := account.exists_stage ongoing
  obtain ⟨peerId, terms, receipts, _, rfl, _, sized, _⟩ := fits.eq_collecting held
  have unreported : ∀ index received pieceCount,
      .report (.pieceReceived index received pieceCount) ∉
        [Action.report (Exchange.closingEvent verdict)] := by
    intro _ _ _ member
    have same := Action.report.inj (List.mem_singleton.mp member)
    exact Exchange.closingEvent_ne_pieceReceived _ _ _ _ same.symm
  obtain ⟨data, status, inserted, only⟩ :=
    Exchange.stored_iff stores number after.received after.pieceCount _ unreported
  obtain ⟨_, _, holds⟩ := (collects.held before held).insert inserted
  rw [sized.size] at holds
  have filled : after.received = after.pieceCount := by simpa [Piece.Table.isComplete] using complete
  have assembled := (collects.records.update only).assembled_iff.mpr
    ⟨holds.isComplete_iff.mp complete, holds.concatenation⟩
  exact ⟨peerId, terms, receipts, rfl, filled.trans holds.pieceCount, holds.pieceCount,
    holds.length_concatenation complete, holds.assemble complete, assembled⟩

/-- A step that ends an exchange reports a fault, or it makes the data whole; these decide then how the
exchange ends. -/
theorem conclusion_of_step {next : Exchange} {frame : Bytes} {actions : List Action}
    (account : Account told exchange) (collects : Collects history exchange content)
    (verified : exchange.verify = true) (step : exchange.Step frame next actions)
    (finished : next.isFinished = true) :
    (∃ fault, actions = [.report (.error fault)]) ∨
      ∃ peerId terms receipts index event data,
        told = (Stage.collecting peerId terms receipts).actions ∧
        actions = [.report (.pieceReceived index (Piece.count terms.metadataSize)
          (Piece.count terms.metadataSize)), .report event] ∧
        data.length = terms.metadataSize ∧
        Assembled (history ++ [⟨frame, actions⟩]) (Piece.count terms.metadataSize) data ∧
        Concluded exchange.infoHash data event := by
  rcases step.end_cases finished with failed | ⟨number, payload, before, after, index, rfl, held, stores,
    complete, rfl⟩
  · exact .inl failed
  obtain ⟨peerId, terms, receipts, told, filled, pieces, sized, whole, assembled⟩ :=
    assembled_of_stores account step.isFinished_eq_false collects held stores complete number
      (exchange.verdict after)
  refine .inr ⟨peerId, terms, receipts, index, _, after.concatenation, told, ?_, sized, assembled,
    Exchange.concluded_verdict verified whole⟩
  rw [filled, pieces]

/-- While an exchange goes on, the pieces stored so far are not all that there are. -/
theorem not_assembled (account : Account told exchange) (collects : Collects history exchange content)
    (ongoing : exchange.isFinished = false) {size pieceCount : Nat} {data : Bytes}
    (agreed : .report (.extendedOk size pieceCount) ∈ told) : ¬ Assembled history pieceCount data := by
  intro assembled
  obtain ⟨stage, valid, fits, rfl⟩ := account.exists_stage ongoing
  obtain ⟨peerId, terms, receipts, rfl, rfl, rfl⟩ := stage.eq_collecting_of_mem_actions agreed
  obtain ⟨_, _, table, other, held, holds, incomplete⟩ := fits
  have collected := collects.held table held
  rw [holds.size] at collected
  have complete := collected.isComplete_iff.mpr (collects.records.assembled_iff.mp assembled).1
  rw [incomplete] at complete
  cases complete

variable {infoHash : InfoHash} {earlier later : List (Stream.Delivery Action)}
  {delivery : Stream.Delivery Action} {last : Exchange}

/-- The exchange that took a frame, and all that is known of it. -/
theorem exists_taker_of_run {verify : Bool}
    (run : frameHandler.Run (.fresh infoHash verify) (earlier ++ delivery :: later) last) :
    ∃ exchange next content, Account (earlier.flatMap (·.outputs)) exchange ∧
      Collects earlier exchange content ∧ exchange.infoHash = infoHash ∧ exchange.verify = verify ∧
      exchange.Step delivery.frame next delivery.outputs ∧
      (next.isFinished = true → later = []) := by
  obtain ⟨exchange, next, before, step, after⟩ := exists_step_of_run run
  obtain ⟨sameHash, sameFlag⟩ := identity_of_run before
  obtain ⟨content, collects⟩ := collects_of_run before step.isFinished_eq_false
  refine ⟨exchange, next, content, account_of_run before, collects, sameHash, sameFlag, step, ?_⟩
  intro finished
  exact (after.nil_of_finished (demand_eq_none_iff.mpr finished)).1

/-- An event that ends the exchange came of the last frame. -/
theorem exists_ending_of_run {verify : Bool}
    (run : frameHandler.Run (.fresh infoHash verify) history last) {event : Exchange.Event}
    (reported : .report event ∈ history.flatMap (·.outputs)) (terminal : event.isTerminal = true) :
    ∃ earlier delivery exchange next content, history = earlier ++ [delivery] ∧
      .report event ∈ delivery.outputs ∧ Account (earlier.flatMap (·.outputs)) exchange ∧
      Collects earlier exchange content ∧ exchange.infoHash = infoHash ∧ exchange.verify = verify ∧
      exchange.Step delivery.frame next delivery.outputs ∧ next.isFinished = true := by
  obtain ⟨delivery, member, reportedNow⟩ := List.mem_flatMap.mp reported
  obtain ⟨earlier, later, rfl⟩ := List.append_of_mem member
  obtain ⟨exchange, next, content, account, collects, sameHash, sameFlag, step, final⟩ :=
    exists_taker_of_run run
  have finished : next.isFinished = true :=
    (Exchange.account_step account step).isFinished_iff.mpr ⟨event, by simp [reportedNow], terminal⟩
  cases final finished
  exact ⟨earlier, delivery, exchange, next, content, rfl, reportedNow, account, collects, sameHash,
    sameFlag, step, finished⟩

theorem data_of_done {metadata : Metadata} (run : frameHandler.Run (.fresh infoHash true) history last)
    (reported : .report (.done metadata) ∈ history.flatMap (·.outputs)) :
    ∃ size pieceCount data before behind,
      history.flatMap (·.outputs) =
        before ++ .report (.extendedOk size pieceCount) :: behind ++ [.report (.done metadata)] ∧
      (∀ otherSize otherCount, .report (.extendedOk otherSize otherCount) ∉ before ++ behind) ∧
      data.length = size ∧ Sha1.digest data = infoHash ∧ Assembled history pieceCount data ∧
      Metadata.ofBytes infoHash data = .ok metadata := by
  obtain ⟨earlier, delivery, exchange, next, content, rfl, reportedNow, account, collects, sameHash,
    verified, step, finished⟩ := exists_ending_of_run run reported rfl
  rcases conclusion_of_step account collects verified step finished with ⟨fault, failed⟩ |
    ⟨peer, terms, receipts, index, event, data, told, ending, sized, assembled, concluded⟩
  · simp [failed] at reportedNow
  · have done : event = .done metadata := by simpa [ending, eq_comm] using reportedNow
    rw [done, sameHash] at concluded
    cases concluded with
    | done same read =>
        refine ⟨_, _, data, Exchange.greeting peer,
          Exchange.requests terms.metadataId (Piece.count terms.metadataSize) ++
            receipts.map (Exchange.Receipt.action (Piece.count terms.metadataSize)) ++
            [.report (.pieceReceived index (Piece.count terms.metadataSize)
              (Piece.count terms.metadataSize))], ?_, ?_, sized, same, assembled, read⟩
        · simp [told, ending, done, Stage.actions, Exchange.agreement]
        · simp [Exchange.Receipt.action]

theorem concluded_of_assembled {size pieceCount : Nat} {data : Bytes}
    (run : frameHandler.Run (.fresh infoHash true) (earlier ++ delivery :: later) last)
    (agreed : .report (.extendedOk size pieceCount) ∈ earlier.flatMap (·.outputs))
    (assembled : Assembled (earlier ++ [delivery]) pieceCount data) :
    later = [] ∧ ∃ index event,
      delivery.outputs = [.report (.pieceReceived index pieceCount pieceCount), .report event] ∧
      Concluded infoHash data event := by
  obtain ⟨exchange, next, content, account, collects, sameHash, verified, step, final⟩ :=
    exists_taker_of_run run
  have finished : next.isFinished = true := by
    rcases Exchange.collects_step collects step with finished | ⟨content, collectsNext⟩
    · exact finished
    · by_contra ongoing
      exact not_assembled (Exchange.account_step account step) collectsNext (by simpa using ongoing)
        (List.mem_append_left _ agreed) assembled
  refine ⟨final finished, ?_⟩
  rcases conclusion_of_step account collects verified step finished with ⟨fault, failed⟩ |
    ⟨peer, terms, receipts, index, event, whole, told, ending, sized, assembledNow, concluded⟩
  · have nothing : ∀ index data, ¬ Exchange.Stored delivery index data :=
      Exchange.not_stored_of_forall_ne (by simp [failed])
    have before : Assembled earlier pieceCount data :=
      collects.records.assembled_iff.mpr ((collects.records.keep nothing).assembled_iff.mp assembled)
    exact absurd before (not_assembled account collects step.isFinished_eq_false agreed)
  · rw [told] at agreed
    obtain ⟨_, _, _, same, rfl, rfl⟩ := Stage.eq_collecting_of_mem_actions _ agreed
    cases same
    rw [assembled.unique assembledNow]
    rw [sameHash] at concluded
    exact ⟨index, event, ending, concluded⟩

/-- A machine that verifies reports metadata only if they are what the pieces stored last write, in
order, and have the size that was agreed on and the hash that was asked for. As soon as there is a piece
for every index, the data that they make decide how the exchange ends. -/
theorem exists_history_verified (infoHash : InfoHash) (peerId : PeerId) (reads : List Bytes) :
    let machine := fresh infoHash peerId true
    let actions := (machine.feedAll reads).2
    ∃ history, machine.History reads history ∧
      (∀ metadata, .report (.done metadata) ∈ actions →
        ∃ size pieceCount data before behind,
          actions =
            before ++ .report (.extendedOk size pieceCount) :: behind ++ [.report (.done metadata)] ∧
          (∀ otherSize otherCount, .report (.extendedOk otherSize otherCount) ∉ before ++ behind) ∧
          data.length = size ∧ Sha1.digest data = infoHash ∧ Assembled history pieceCount data ∧
          Metadata.ofBytes infoHash data = .ok metadata ∧ metadata.infoHash = infoHash) ∧
      ∀ earlier delivery later size pieceCount data, history = earlier ++ delivery :: later →
        .report (.extendedOk size pieceCount) ∈ earlier.flatMap (·.outputs) →
        Assembled (earlier ++ [delivery]) pieceCount data →
        later = [] ∧ ∃ index event,
          delivery.outputs = [.report (.pieceReceived index pieceCount pieceCount), .report event] ∧
          Concluded infoHash data event := by
  intro machine actions
  obtain ⟨history, recorded⟩ := exists_history (settled_fresh infoHash peerId true) reads
  refine ⟨history, recorded, ?_, ?_⟩
  · intro metadata reported
    have reportedThere : .report (.done metadata) ∈ history.flatMap (·.outputs) := by
      rw [← recorded.actions]
      exact reported
    obtain ⟨size, pieceCount, data, before, behind, all, only, sized, same, assembled, read⟩ :=
      data_of_done recorded.run reportedThere
    exact ⟨size, pieceCount, data, before, behind, recorded.actions.trans all, only, sized, same,
      assembled, read, Metadata.infoHash_of_ofBytes read⟩
  · intro earlier delivery later size pieceCount data parts agreed assembled
    subst parts
    exact concluded_of_assembled recorded.run agreed assembled

end MetaExchange.Machine
