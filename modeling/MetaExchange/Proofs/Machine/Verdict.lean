import MetaExchange.Connection.Attempt
import MetaExchange.Proofs.Machine.Bounds

namespace MetaExchange

namespace Exchange

def Action.Quiet (actions : List Action) : Prop := ∀ action ∈ actions, action.outcome? = none

/-- Actions that leave an exchange going on without a word about its end, or that end it with their last. -/
inductive Concludes : List Action → Exchange → Prop where
  | ongoing {actions : List Action} {exchange : Exchange} (quiet : Action.Quiet actions)
      (unfinished : exchange.isFinished = false) : Concludes actions exchange
  | ended {actions : List Action} {exchange : Exchange} (verdict : Except Fault Metadata)
      (quiet : Action.Quiet actions) (finished : exchange.isFinished = true) :
      Concludes (actions ++ [.report (closingEvent verdict)]) exchange

variable {exchange next : Exchange} {frame : Bytes} {actions told : List Action}

theorem outcome?_closingEvent (verdict : Except Fault Metadata) :
    (Action.report (closingEvent verdict)).outcome? = some verdict := by
  cases verdict <;> rfl

theorem Action.quiet_nil : Action.Quiet [] := by
  simp [Quiet]

theorem Action.Quiet.append (first : Action.Quiet told) (second : Action.Quiet actions) :
    Action.Quiet (told ++ actions) := by
  intro action member
  exact (List.mem_append.mp member).elim (first action) (second action)

theorem Action.Quiet.findSome? (quiet : Action.Quiet actions) :
    actions.findSome? Action.outcome? = none :=
  List.findSome?_eq_none_iff.mpr quiet

theorem Action.Quiet.lastOutcome? (quiet : Action.Quiet actions) :
    Action.lastOutcome? actions = none := by
  unfold Action.lastOutcome?
  rw [List.findSome?_eq_none_iff]
  intro action member
  exact quiet action (List.mem_reverse.mp member)

theorem quiet_agreement (terms : Extension.Terms) (size pieceCount : Nat) :
    Action.Quiet (.report (.extendedOk size pieceCount) :: requests terms.metadataId pieceCount) := by
  intro action member
  simp only [requests, List.mem_cons, List.mem_map] at member
  rcases member with rfl | ⟨_, _, rfl⟩ <;> rfl

theorem Step.concludes (step : exchange.Step frame next actions) : Concludes actions next := by
  cases step with
  | protocolLength awaited => exact .ongoing Action.quiet_nil rfl
  | greeted awaited parsed =>
      refine .ongoing ?_ rfl
      simp [Action.Quiet, Action.outcome?, Event.outcome?]
  | keptAlive awaited announced =>
      exact .ongoing Action.quiet_nil (by simp [isFinished, awaited])
  | messageLength awaited announced positive short => exact .ongoing Action.quiet_nil rfl
  | ignored awaited ignores => exact .ongoing Action.quiet_nil rfl
  | @agreed size payload terms table awaited tableless negotiated =>
      exact .ongoing (quiet_agreement terms _ _) rfl
  | stored awaited held numbered stores incomplete =>
      refine .ongoing ?_ rfl
      simp [Action.Quiet, Action.outcome?, Event.outcome?]
  | @completed size number payload before after index awaited held numbered stores complete =>
      have quiet : Action.Quiet [.report (.pieceReceived index after.received after.pieceCount)] := by
        simp [Action.Quiet, Action.outcome?, Event.outcome?]
      exact .ended _ quiet rfl
  | @refused frame fault refuses => exact .ended (.error fault) Action.quiet_nil rfl

theorem Concludes.prepend (concludes : Concludes actions next) (quiet : Action.Quiet told) :
    Concludes (told ++ actions) next := by
  cases concludes with
  | ongoing quiet' unfinished => exact .ongoing (quiet.append quiet') unfinished
  | ended verdict quiet' finished =>
      rw [← List.append_assoc]
      exact .ended verdict (quiet.append quiet') finished

/-- There is one outcome at most, so that the first is the last. -/
theorem Concludes.lastOutcome?_eq (concludes : Concludes actions next) :
    Action.lastOutcome? actions = actions.findSome? Action.outcome? := by
  cases concludes with
  | ongoing quiet unfinished => rw [quiet.lastOutcome?, quiet.findSome?]
  | ended verdict quiet finished =>
      rw [List.findSome?_append, quiet.findSome?]
      simp [Action.lastOutcome?, outcome?_closingEvent]

theorem Concludes.isFinished_eq (concludes : Concludes actions next) :
    next.isFinished = (actions.findSome? Action.outcome?).isSome := by
  cases concludes with
  | ongoing quiet unfinished => rw [quiet.findSome?, unfinished, Option.isSome_none]
  | ended verdict quiet finished =>
      rw [List.findSome?_append, quiet.findSome?, finished]
      simp [outcome?_closingEvent]

end Exchange

namespace Machine

open Exchange (Action Concludes frameHandler)

variable {machine : Machine}

theorem concludes_feed (ongoing : machine.isFinished = false) (bytes : Bytes) :
    Concludes (machine.feed bytes).2 (machine.feed bytes).1.exchange := by
  obtain ⟨history, left, run, _, outputs, _⟩ := exists_run_feed machine bytes
  rw [outputs]
  apply invariant_of_step
    (motive := fun past exchange => Concludes (past.flatMap (·.outputs)) exchange) run
    (.ongoing Action.quiet_nil ongoing)
  intro past exchange frame next actions concludes step
  rw [List.flatMap_append, List.flatMap_singleton]
  generalize past.flatMap (·.outputs) = told at concludes
  cases concludes with
  | ongoing quiet unfinished => exact step.concludes.prepend quiet
  | ended verdict quiet finished =>
      rw [step.isFinished_eq_false] at finished
      cases finished

end Machine

end MetaExchange
