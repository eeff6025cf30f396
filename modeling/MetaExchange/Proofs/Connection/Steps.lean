import MetaExchange.Connection.System

/-!
What a move of the two loops can do, said once (`step?_eq_some_iff`): whatever holds in all their states
is proved by cases on `Step`.
-/

namespace MetaExchange.Connection.System

open Exchange (Action)

inductive Step : State → Move → State → Prop where
  | read {state : State} {bytes : Bytes} {reads : List Bytes} (reading : state.reader = .reading)
      (coming : state.reads = bytes :: reads) :
      Step state .read
        { state with
          machine := (state.machine.feed bytes).1, reads
          reader := .forwarding (state.machine.feed bytes).2
          received := state.received ++ bytes }
  | readEnd {state : State} (reading : state.reader = .reading) (coming : state.reads = []) :
      Step state .read { state with reader := .reporting state.ending }
  | goOn {state : State} (forwarded : state.reader = .forwarding [])
      (ongoing : state.machine.isFinished = false) :
      Step state .forward { state with reader := .reading }
  | finish {state : State} (forwarded : state.reader = .forwarding [])
      (finished : state.machine.isFinished = true) :
      Step state .forward { state with reader := .stopped }
  | handMessage {state : State} {message : Bytes} {rest : List Action}
      (forwarding : state.reader = .forwarding (.send message :: rest))
      (present : state.writer ≠ .stopped) (free : state.outbound = none) :
      Step state .forward { state with outbound := some message, reader := .forwarding rest }
  | handEvent {state : State} {event : Exchange.Event} {rest : List Action}
      (forwarding : state.reader = .forwarding (.report event :: rest))
      (present : state.writer ≠ .stopped) (free : state.notice = none) :
      Step state .forward { state with notice := some (.event event), reader := .forwarding rest }
  | handTrouble {state : State} {trouble : Trouble} (reporting : state.reader = .reporting trouble)
      (present : state.writer ≠ .stopped) (free : state.notice = none) :
      Step state .report { state with notice := some (.trouble trouble), reader := .stopped }
  | dropAction {state : State} {action : Action} {rest : List Action}
      (forwarding : state.reader = .forwarding (action :: rest)) (gone : state.writer = .stopped) :
      Step state .forward { state with reader := .stopped }
  | dropTrouble {state : State} {trouble : Trouble} (reporting : state.reader = .reporting trouble)
      (gone : state.writer = .stopped) : Step state .report { state with reader := .stopped }
  | takeMessage {state : State} {message : Bytes} (selecting : state.writer = .selecting)
      (waiting : state.outbound = some message) :
      Step state .takeMessage
        { state with
          outbound := none, writer := .writing message, written := state.written ++ [message] }
  | takeEvent {state : State} {notice : Notice} (selecting : state.writer = .selecting)
      (waiting : state.notice = some notice) (goesOn : notice.outcome? = none) :
      Step state .takeNotice { state with notice := none }
  | takeOutcome {state : State} {notice : Notice} {outcome : Outcome}
      (selecting : state.writer = .selecting) (waiting : state.notice = some notice)
      (ends : notice.outcome? = some outcome) :
      Step state .takeNotice
        { state with notice := none, writer := .stopped, outcome := some outcome }
  | finishWrite {state : State} {message : Bytes} (writing : state.writer = .writing message) :
      Step state .finishWrite { state with writer := .selecting }
  | failWrite {state : State} {message : Bytes} (writing : state.writer = .writing message)
      (cause : SystemError) :
      Step state (.failWrite cause)
        { state with
          writer := .stopped, outcome := some (.error (.trouble (.writeFailed cause))) }
  | giveUp {state : State} (selecting : state.writer = .selecting) (unsent : state.outbound = none)
      (untold : state.notice = none) (gone : state.reader = .stopped) :
      Step state .giveUp { state with writer := .stopped }

def Move.Proceeds (move : Move) : Prop := ∀ cause, move ≠ .failWrite cause

variable {state next : State} {move : Move}

theorem writerGone_iff : state.writerGone = true ↔ state.writer = .stopped :=
  decide_eq_true_iff

theorem readerGone_iff : state.readerGone = true ↔ state.reader = .stopped :=
  decide_eq_true_iff

theorem step_of_read? (moved : state.read? = some next) : Step state .read next := by
  unfold State.read? at moved
  split at moved
  · next bytes reads reading coming =>
      cases moved
      exact .read reading coming
  · next reading coming =>
      cases moved
      exact .readEnd reading coming
  · cases moved

theorem step_of_forward? (moved : state.forward? = some next) : Step state .forward next := by
  unfold State.forward? at moved
  split at moved
  · next forwarded =>
      cases moved
      cases finished : state.machine.isFinished with
      | true => exact .finish forwarded finished
      | false => exact .goOn forwarded finished
  · next message rest forwarding =>
      split at moved
      · next gone =>
          cases moved
          exact .dropAction forwarding (writerGone_iff.mp gone)
      · next present =>
          split at moved
          · next free =>
              cases moved
              exact .handMessage forwarding ((not_congr writerGone_iff).mp present)
                (Option.isNone_iff_eq_none.mp free)
          · cases moved
  · next event rest forwarding =>
      split at moved
      · next gone =>
          cases moved
          exact .dropAction forwarding (writerGone_iff.mp gone)
      · next present =>
          split at moved
          · next free =>
              cases moved
              exact .handEvent forwarding ((not_congr writerGone_iff).mp present)
                (Option.isNone_iff_eq_none.mp free)
          · cases moved
  · cases moved

theorem step_of_report? (moved : state.report? = some next) : Step state .report next := by
  unfold State.report? at moved
  split at moved
  · next trouble reporting =>
      split at moved
      · next gone =>
          cases moved
          exact .dropTrouble reporting (writerGone_iff.mp gone)
      · next present =>
          split at moved
          · next free =>
              cases moved
              exact .handTrouble reporting ((not_congr writerGone_iff).mp present)
                (Option.isNone_iff_eq_none.mp free)
          · cases moved
  · cases moved

theorem step_of_takeMessage? (moved : state.takeMessage? = some next) :
    Step state .takeMessage next := by
  unfold State.takeMessage? at moved
  split at moved
  · next message selecting waiting =>
      cases moved
      exact .takeMessage selecting waiting
  · cases moved

theorem step_of_takeNotice? (moved : state.takeNotice? = some next) : Step state .takeNotice next := by
  unfold State.takeNotice? at moved
  split at moved
  · next notice selecting waiting =>
      split at moved
      · next goesOn =>
          cases moved
          exact .takeEvent selecting waiting goesOn
      · next outcome ends =>
          cases moved
          exact .takeOutcome selecting waiting ends
  · cases moved

theorem step_of_finishWrite? (moved : state.finishWrite? = some next) :
    Step state .finishWrite next := by
  unfold State.finishWrite? at moved
  split at moved
  · next message writing =>
      cases moved
      exact .finishWrite writing
  · cases moved

theorem step_of_failWrite? {cause : SystemError} (moved : state.failWrite? cause = some next) :
    Step state (.failWrite cause) next := by
  unfold State.failWrite? at moved
  split at moved
  · next message writing =>
      cases moved
      exact .failWrite writing cause
  · cases moved

theorem step_of_giveUp? (moved : state.giveUp? = some next) : Step state .giveUp next := by
  unfold State.giveUp? at moved
  split at moved
  · next selecting unsent untold =>
      split at moved
      · next gone =>
          cases moved
          exact .giveUp selecting unsent untold (readerGone_iff.mp gone)
      · cases moved
  · cases moved

theorem step?_eq_some_iff : state.step? move = some next ↔ Step state move next := by
  constructor
  · intro moved
    cases move with
    | read => exact step_of_read? moved
    | forward => exact step_of_forward? moved
    | report => exact step_of_report? moved
    | takeMessage => exact step_of_takeMessage? moved
    | takeNotice => exact step_of_takeNotice? moved
    | finishWrite => exact step_of_finishWrite? moved
    | failWrite cause => exact step_of_failWrite? moved
    | giveUp => exact step_of_giveUp? moved
  · intro step
    cases step with
    | @dropAction action rest forwarding gone =>
        cases action <;> simp [State.step?, State.forward?, forwarding, writerGone_iff.mpr gone]
    | _ =>
        simp_all [State.step?, State.read?, State.forward?, State.report?, State.takeMessage?,
          State.takeNotice?, State.finishWrite?, State.failWrite?, State.giveUp?, State.writerGone,
          State.readerGone]

theorem Step.outcome_eq_none (step : Step state move next) (pending : next.outcome = none) :
    state.outcome = none := by
  cases step with
  | takeOutcome selecting waiting ends => cases pending
  | failWrite writing cause => cases pending
  | _ => exact pending

end MetaExchange.Connection.System
