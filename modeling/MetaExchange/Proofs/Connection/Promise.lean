import MetaExchange.Proofs.Connection.Steps
import MetaExchange.Proofs.Machine.Verdict

/-!
The outcome that a state of the two loops has in store, before anything is delivered: that of the notice
in the channel, else that of what the reader has still to hand on. No move changes it until it is
delivered, whoever moves (`State.Coherent.step`).
-/

namespace MetaExchange.Connection

open Exchange (Action)

/-- What the first of the actions that end an exchange means for the attempt. -/
def firstOutcome? (actions : List Action) : Option Outcome :=
  (actions.findSome? Action.outcome?).map Outcome.ofExchange

/-- What comes of reads that a machine still has before it, and of what ends them. -/
def finalOutcome (machine : Machine) (reads : List Bytes) (ending : Trouble) : Outcome :=
  (firstOutcome? (machine.feedAll reads).2).getD (.error (.trouble ending))

def comingOutcome? (machine : Machine) (reads : List Bytes) (ending : Trouble) : Option Outcome :=
  if machine.isFinished then none else some (finalOutcome machine reads ending)

def ReadLoop.promised (machine : Machine) (reads : List Bytes) (ending : Trouble) :
    ReadLoop → Option Outcome
  | .reading => some (finalOutcome machine reads ending)
  | .forwarding actions => (firstOutcome? actions).or (comingOutcome? machine reads ending)
  | .reporting trouble => some (.error (.trouble trouble))
  | .stopped => none

variable {machine : Machine} {bytes : Bytes} {reads : List Bytes} {ending : Trouble}

theorem firstOutcome?_append (front back : List Action) :
    firstOutcome? (front ++ back) = (firstOutcome? front).or (firstOutcome? back) := by
  unfold firstOutcome?
  rw [List.findSome?_append]
  cases front.findSome? Action.outcome? <;> rfl

theorem firstOutcome?_send (message : Bytes) (rest : List Action) :
    firstOutcome? (.send message :: rest) = firstOutcome? rest := rfl

theorem firstOutcome?_report (event : Exchange.Event) (rest : List Action) :
    firstOutcome? (.report event :: rest) = (Notice.event event).outcome?.or (firstOutcome? rest) := by
  simp only [firstOutcome?, List.findSome?_cons, Action.outcome?, Notice.outcome?]
  cases event.outcome? <;> rfl

theorem isFinished_feed (ongoing : machine.isFinished = false) (bytes : Bytes) :
    (machine.feed bytes).1.isFinished = (firstOutcome? (machine.feed bytes).2).isSome := by
  have ends := (Machine.concludes_feed ongoing bytes).isFinished_eq
  rw [firstOutcome?, Option.isSome_map]
  exact ends

/-- A read brings the outcome, or leaves it to those behind it. -/
theorem finalOutcome_cons (ongoing : machine.isFinished = false) :
    some (finalOutcome machine (bytes :: reads) ending) =
      (firstOutcome? (machine.feed bytes).2).or
        (comingOutcome? (machine.feed bytes).1 reads ending) := by
  have ends := isFinished_feed ongoing bytes
  unfold finalOutcome comingOutcome?
  rw [Machine.feedAll_cons, firstOutcome?_append, ends]
  cases firstOutcome? (machine.feed bytes).2 <;> rfl

namespace System

/-- The outcome that the writer will find, if it takes all notices that come. -/
def State.promised (state : State) : Option Outcome :=
  (state.notice.bind Notice.outcome?).or
    (state.reader.promised state.machine state.reads state.ending)

/-- The writer has stopped if and only if it has delivered, and until then one outcome is in store. -/
structure State.Coherent (state : State) (expected : Outcome) : Prop where
  reading : state.reader = .reading → state.machine.isFinished = false
  delivered : state.writer = .stopped ↔ state.outcome.isSome = true
  promised : state.outcome = none → state.promised = some expected

variable {state next : State} {move : Move} {expected : Outcome}

theorem coherent_initial (ongoing : machine.isFinished = false) (reads : List Bytes)
    (ending : Trouble) :
    (State.initial machine reads ending).Coherent (finalOutcome machine reads ending) :=
  ⟨fun _ => ongoing, by simp [State.initial], fun _ => rfl⟩

namespace State.Coherent

theorem outcome_eq_none (coherent : state.Coherent expected) (present : state.writer ≠ .stopped) :
    state.outcome = none := by
  rw [← Option.not_isSome_iff_eq_none, ← coherent.delivered]
  exact present

theorem outcome_ne_none (coherent : state.Coherent expected) (gone : state.writer = .stopped) :
    state.outcome ≠ none :=
  Option.isSome_iff_ne_none.mp (coherent.delivered.mp gone)

theorem not_giveUp (coherent : state.Coherent expected) : ¬ Step state .giveUp next := by
  intro step
  cases step with
  | giveUp selecting unsent untold gone =>
      have pending := coherent.outcome_eq_none (by simp [selecting])
      have stored := coherent.promised pending
      simp [State.promised, untold, gone, ReadLoop.promised] at stored

theorem promised_eq (coherent : state.Coherent expected) (step : Step state move next)
    (pending : next.outcome = none) : next.promised = state.promised := by
  unfold State.promised
  cases step with
  | read reading coming =>
      rw [reading, coming, ReadLoop.promised, ReadLoop.promised,
        finalOutcome_cons (coherent.reading reading)]
  | readEnd reading coming =>
      rw [reading, coming]
      rfl
  | goOn forwarded ongoing =>
      rw [forwarded, ReadLoop.promised, ReadLoop.promised, comingOutcome?, ongoing]
      rfl
  | finish forwarded finished =>
      rw [forwarded, ReadLoop.promised, ReadLoop.promised, comingOutcome?, finished]
      rfl
  | handMessage forwarding present free =>
      rw [forwarding, ReadLoop.promised, ReadLoop.promised, firstOutcome?_send]
  | handEvent forwarding present free =>
      rw [forwarding, free, ReadLoop.promised, ReadLoop.promised, firstOutcome?_report, Option.or_assoc]
      rfl
  | handTrouble reporting present free =>
      rw [reporting, free]
      rfl
  | dropAction forwarding gone => exact absurd pending (coherent.outcome_ne_none gone)
  | dropTrouble reporting gone => exact absurd pending (coherent.outcome_ne_none gone)
  | takeMessage selecting waiting => rfl
  | takeEvent selecting waiting goesOn =>
      rw [waiting, Option.bind_some, goesOn]
      rfl
  | takeOutcome selecting waiting ends => cases pending
  | finishWrite writing => rfl
  | failWrite writing cause => cases pending
  | giveUp selecting unsent untold gone => rfl

theorem reading_step (coherent : state.Coherent expected) (step : Step state move next)
    (reading : next.reader = .reading) : next.machine.isFinished = false := by
  cases step with
  | goOn forwarded ongoing => exact ongoing
  | takeMessage selecting waiting => exact coherent.reading reading
  | takeEvent selecting waiting goesOn => exact coherent.reading reading
  | takeOutcome selecting waiting ends => exact coherent.reading reading
  | finishWrite writing => exact coherent.reading reading
  | failWrite writing cause => exact coherent.reading reading
  | giveUp selecting unsent untold gone => exact coherent.reading reading
  | _ => cases reading

theorem delivered_step (coherent : state.Coherent expected) (step : Step state move next) :
    next.writer = .stopped ↔ next.outcome.isSome = true := by
  cases step with
  | takeMessage selecting waiting => simp [coherent.outcome_eq_none (by simp [selecting])]
  | takeOutcome selecting waiting ends => simp
  | finishWrite writing => simp [coherent.outcome_eq_none (by simp [writing])]
  | failWrite writing cause => simp
  | giveUp selecting unsent untold gone =>
      exact absurd (.giveUp selecting unsent untold gone) coherent.not_giveUp
  | _ => exact coherent.delivered

/-- No move changes what is in store, unless it delivers an outcome. -/
theorem step (coherent : state.Coherent expected) (step : Step state move next) :
    next.Coherent expected := by
  refine ⟨coherent.reading_step step, coherent.delivered_step step, ?_⟩
  intro pending
  rw [coherent.promised_eq step pending]
  exact coherent.promised (step.outcome_eq_none pending)

/-- Where all writes succeed, the outcome that is delivered is the one that was in store. -/
theorem outcome_step (coherent : state.Coherent expected) (step : Step state move next)
    (proceeds : move.Proceeds)
    (settled : ∀ outcome, state.outcome = some outcome → outcome = expected) :
    ∀ outcome, next.outcome = some outcome → outcome = expected := by
  cases step with
  | @takeOutcome notice outcome selecting waiting ends =>
      have stored := coherent.promised (coherent.outcome_eq_none (by simp [selecting]))
      rw [State.promised, waiting, Option.bind_some, ends, Option.some_or] at stored
      intro known delivered
      exact Option.some.inj (delivered.symm.trans stored)
  | failWrite writing cause => exact absurd rfl (proceeds cause)
  | _ => exact settled

theorem reached {allowed : Move → Prop} {start : State} (coherent : start.Coherent expected)
    (reached : Reaches allowed start state) : state.Coherent expected := by
  induction reached with
  | refl => exact coherent
  | step move _ _ moved ih => exact ih.step (step?_eq_some_iff.mp moved)

end State.Coherent

end System

end MetaExchange.Connection
