import MetaExchange.Proofs.Exchange.Collection
import MetaExchange.Proofs.Exchange.Stage
import MetaExchange.Proofs.Machine.Chunking

/-!
The frames that a machine took from its reads, and what came of each. Whatever is kept by every frame
holds of a machine after any reads (`History.run`).
-/

namespace MetaExchange.Machine

open Exchange (Action Account frameHandler)

variable {before : Machine} {reads : List Bytes} {history : List (Stream.Delivery Action)}

/-- One frame after the other was taken from the bytes fed, and all actions came of these frames. The
bytes behind them are kept, unless the exchange has ended. -/
structure History (before : Machine) (reads : List Bytes)
    (history : List (Stream.Delivery Action)) : Prop where
  run : frameHandler.Run before.exchange history (before.feedAll reads).1.exchange
  actions : (before.feedAll reads).2 = history.flatMap (·.outputs)
  bytes : ∃ left, before.backlog.toList ++ reads.flatten = history.flatMap (·.frame) ++ left ∧
    ((before.feedAll reads).1.isFinished = false → (before.feedAll reads).1.backlog.toList = left)

theorem demand_eq_none_iff {exchange : Exchange} :
    frameHandler.demand exchange = none ↔ exchange.isFinished = true := by
  unfold Exchange.isFinished frameHandler
  dsimp only
  cases exchange.awaiting <;> simp [Exchange.Awaiting.frameSize]

theorem feed_of_finished {machine : Machine} (finished : machine.isFinished = true) (bytes : Bytes) :
    machine.feed bytes = ({ machine with backlog := .empty }, []) := by
  have nothing := Stream.FrameHandler.drain_of_finished frameHandler
    (machine.backlog.toList ++ bytes) (demand_eq_none_iff.mpr finished)
  rw [feed_eq, nothing]
  rfl

/-- A run that goes as far as draining all the bytes is a history of the reads. -/
theorem history_of_run (settled : before.Settled) {reads : List Bytes} {left : Bytes} :
    let drained := frameHandler.drain before.exchange (before.backlog.toList ++ reads.flatten)
    frameHandler.Run before.exchange history drained.state →
    drained.outputs = history.flatMap (·.outputs) →
    before.backlog.toList ++ reads.flatten = history.flatMap (·.frame) ++ left →
    (match frameHandler.demand drained.state with
      | none => drained.rest = []
      | some size => drained.rest = left ∧ left.length < size) →
    before.History reads history := by
  intro drained run outputs bytes rest
  have fed : before.feedAll reads = _ := (feedAll_eq_feed settled reads).trans (feed_eq _ _)
  refine ⟨?_, ?_, left, bytes, ?_⟩
  · rw [fed]
    exact run
  · rw [fed]
    exact outputs
  · rw [fed]
    intro ongoing
    have wanted : ∃ size, frameHandler.demand drained.state = some size := by
      apply Option.ne_none_iff_exists'.mp
      rw [ne_eq, demand_eq_none_iff, Bool.not_eq_true]
      exact ongoing
    obtain ⟨size, demanded⟩ := wanted
    rw [demanded] at rest
    rw [Stream.Backlog.toList_ofList]
    exact rest.1

theorem exists_history (settled : before.Settled) (reads : List Bytes) :
    ∃ history, before.History reads history := by
  obtain ⟨history, left, run, outputs, _, bytes, rest⟩ :=
    Stream.FrameHandler.exists_run_drain frameHandler before.exchange
      (before.backlog.toList ++ reads.flatten)
  exact ⟨history, history_of_run settled run outputs bytes rest⟩

/-- What a step keeps, a run of frames keeps. It may speak of all frames so far. -/
theorem invariant_of_step {motive : List (Stream.Delivery Action) → Exchange → Prop}
    {start last : Exchange} (run : frameHandler.Run start history last) (initially : motive [] start)
    (kept : ∀ past exchange frame next actions, motive past exchange →
      Exchange.Step exchange frame next actions → motive (past ++ [⟨frame, actions⟩]) next) :
    motive history last :=
  run.invariant initially fun past exchange frame now demanded =>
    kept past exchange frame _ _ now (Exchange.step_accept demanded)

/-- Every frame was taken by a step, and what goes before and behind it is a run too. -/
theorem exists_step_of_run {start last : Exchange} {earlier later : List (Stream.Delivery Action)}
    {delivery : Stream.Delivery Action}
    (run : frameHandler.Run start (earlier ++ delivery :: later) last) :
    ∃ exchange next, frameHandler.Run start earlier exchange ∧
      exchange.Step delivery.frame next delivery.outputs ∧ frameHandler.Run next later last := by
  obtain ⟨exchange, before, after⟩ := run.split
  cases after with
  | deliver demanded onward =>
      exact ⟨exchange, _, before, Exchange.step_accept demanded, onward⟩

theorem account_of_run {infoHash : InfoHash} {verify : Bool} {last : Exchange}
    (run : frameHandler.Run (.fresh infoHash verify) history last) :
    Account (history.flatMap (·.outputs)) last := by
  apply invariant_of_step
    (motive := fun past exchange => Account (past.flatMap (·.outputs)) exchange) run
    (Exchange.account_fresh infoHash verify)
  intro past exchange frame next actions account step
  simpa using Exchange.account_step account step

theorem account_feed (infoHash : InfoHash) (peerId : PeerId) (verify : Bool) (bytes : Bytes) :
    let fed := (fresh infoHash peerId verify).feed bytes
    Account fed.2 fed.1.exchange := by
  obtain ⟨history, recorded⟩ := exists_history (settled_fresh infoHash peerId verify) [bytes]
  have account := account_of_run recorded.run
  rw [← recorded.actions, feedAll_fresh, List.flatten_singleton] at account
  exact account

theorem identity_of_run {start last : Exchange} (run : frameHandler.Run start history last) :
    last.infoHash = start.infoHash ∧ last.verify = start.verify := by
  apply invariant_of_step
    (motive := fun _ exchange => exchange.infoHash = start.infoHash ∧ exchange.verify = start.verify)
    run ⟨rfl, rfl⟩
  intro past exchange frame next actions same step
  obtain ⟨keptHash, keptFlag⟩ := step.identity_eq
  exact ⟨keptHash.trans same.1, keptFlag.trans same.2⟩

theorem collects_of_run {infoHash : InfoHash} {verify : Bool} {last : Exchange}
    (run : frameHandler.Run (.fresh infoHash verify) history last) (ongoing : last.isFinished = false) :
    ∃ content, Exchange.Collects history last content := by
  revert ongoing
  apply invariant_of_step
    (motive := fun past exchange =>
      exchange.isFinished = false → ∃ content, Exchange.Collects past exchange content)
    run (fun _ => ⟨_, Exchange.collects_fresh infoHash verify⟩)
  intro past exchange frame next actions collected step ongoing
  obtain ⟨content, collects⟩ := collected step.isFinished_eq_false
  rcases Exchange.collects_step collects step with finished | kept
  · rw [ongoing] at finished
    cases finished
  · exact kept

end MetaExchange.Machine
