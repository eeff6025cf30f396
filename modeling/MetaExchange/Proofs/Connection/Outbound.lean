import MetaExchange.Proofs.Connection.Progress
import MetaExchange.Proofs.Machine.Boundary

/-!
What is written to the peer. The messages that the machine asks for go through the first channel one by
one, and nothing else does: those written, the one in the channel and those that the reader still has are,
in this order, all that were asked for (`State.Ordered`). Only when the writer has stopped may the reader
give the rest up.
-/

namespace MetaExchange

def Exchange.Action.message? : Exchange.Action → Option Bytes
  | .send message => some message
  | .report _ => none

def Exchange.Action.messages (actions : List Exchange.Action) : List Bytes :=
  actions.filterMap message?

open Exchange (Action)

/-- All that a machine wants to be written when it has read some bytes; our greeting goes first. -/
def Machine.due (machine : Machine) (bytes : Bytes) : List Bytes :=
  machine.start :: Action.messages (machine.feed bytes).2

theorem Machine.due_append (machine : Machine) (bytes more : Bytes) :
    machine.due (bytes ++ more) =
      machine.due bytes ++ Action.messages ((machine.feed bytes).1.feed more).2 := by
  simp only [due, feed_append, Action.messages, List.filterMap_append, List.cons_append]

namespace Connection

def ReadLoop.messages : ReadLoop → List Bytes
  | .forwarding actions => Action.messages actions
  | _ => []

def WriteLoop.message? : WriteLoop → Option Bytes
  | .writing message => some message
  | _ => none

namespace System

/-- The message that a move puts in the first channel. -/
def State.handed? (state : State) : Move → Option Bytes
  | .forward =>
    match state.reader with
    | .forwarding (.send message :: _) => if state.writerGone then none else some message
    | _ => none
  | _ => none

/-- The messages that the first channel has taken on the way to a state, the greeting included. -/
inductive Accepts (start : State) : List Bytes → State → Prop where
  | refl : Accepts start start.outbound.toList start
  | step {accepted : List Bytes} {state next : State} (move : Move) :
      Accepts start accepted state → state.step? move = some next →
        Accepts start (accepted ++ (state.handed? move).toList) next

/-- The messages that were written, the one in the channel, and those that the reader still has. -/
def State.messages (state : State) : List Bytes :=
  state.written ++ state.outbound.toList ++ state.reader.messages

/-- What was asked for on account of the bytes read so far is written in order. Nothing of it is lost
while one of the loops runs. -/
structure State.Ordered (origin : Machine) (stream : Bytes) (state : State) : Prop where
  machine : state.machine = (origin.feed state.received).1
  stream : state.received ++ state.reads.flatten = stream
  begun : ∃ finished, state.written = finished ++ state.writer.message?.toList
  due : ∃ lost, origin.due state.received = state.messages ++ lost ∧
    (lost = [] ∨ state.reader = .stopped ∧ state.writer = .stopped)

variable {start state next : State} {move : Move} {origin : Machine} {stream : Bytes}
  {accepted : List Bytes}

/-- A channel takes a message only from the reader, and gives it only to the writer. -/
theorem channel_step (step : Step state move next) :
    next.written ++ next.outbound.toList =
      state.written ++ state.outbound.toList ++ (state.handed? move).toList := by
  cases step with
  | handMessage forwarding present free =>
      have writing : state.writerGone = false := by simpa [State.writerGone] using present
      simp [State.handed?, forwarding, writing, free]
  | handEvent forwarding present free => simp [State.handed?, forwarding]
  | goOn forwarded ongoing => simp [State.handed?, forwarded]
  | finish forwarded finished => simp [State.handed?, forwarded]
  | @dropAction action rest forwarding gone =>
      cases action <;> simp [State.handed?, forwarding, writerGone_iff.mpr gone]
  | takeMessage selecting waiting => simp [State.handed?, waiting]
  | _ => simp [State.handed?]

theorem accepted_eq (accepts : Accepts start accepted state) (unwritten : start.written = []) :
    accepted = state.written ++ state.outbound.toList := by
  induction accepts with
  | refl => rw [unwritten, List.nil_append]
  | step move _ moved ih => rw [channel_step (step?_eq_some_iff.mp moved), ih]

theorem exists_accepts {allowed : Move → Prop} (reached : Reaches allowed start state) :
    ∃ accepted, Accepts start accepted state := by
  induction reached with
  | refl => exact ⟨_, .refl⟩
  | step move _ _ moved ih =>
      obtain ⟨accepted, accepts⟩ := ih
      exact ⟨_, .step move accepts moved⟩

theorem ordered_initial (settled : origin.Settled) (reads : List Bytes) (ending : Trouble) :
    (State.initial origin reads ending).Ordered origin reads.flatten := by
  have nothing : origin.feed [] = (origin, []) := settled
  refine ⟨?_, rfl, ⟨[], rfl⟩, [], ?_, .inl rfl⟩
  · simp only [State.initial, nothing]
  · simp [State.initial, State.messages, ReadLoop.messages, Machine.due, nothing, Action.messages]

theorem Step.runs (step : Step state move next) :
    state.reader ≠ .stopped ∨ state.writer ≠ .stopped := by
  cases step <;> simp_all

namespace State.Ordered

theorem due_eq (ordered : state.Ordered origin stream)
    (runs : state.reader ≠ .stopped ∨ state.writer ≠ .stopped) :
    origin.due state.received = state.messages := by
  obtain ⟨lost, all, kept⟩ := ordered.due
  have nothing : lost = [] := kept.resolve_right (by rintro ⟨gone, away⟩; simp_all)
  rw [all, nothing, List.append_nil]

theorem begun_step (ordered : state.Ordered origin stream) (step : Step state move next) :
    ∃ finished, next.written = finished ++ next.writer.message?.toList := by
  obtain ⟨finished, parts⟩ := ordered.begun
  cases step with
  | takeMessage selecting waiting => exact ⟨state.written, rfl⟩
  | takeOutcome selecting waiting ends => exact ⟨state.written, by simp [WriteLoop.message?]⟩
  | finishWrite writing => exact ⟨state.written, by simp [WriteLoop.message?]⟩
  | failWrite writing cause => exact ⟨state.written, by simp [WriteLoop.message?]⟩
  | giveUp selecting unsent untold gone => exact ⟨state.written, by simp [WriteLoop.message?]⟩
  | _ => exact ⟨finished, parts⟩

theorem due_step (ordered : state.Ordered origin stream) (step : Step state move next) :
    ∃ lost, origin.due next.received = next.messages ++ lost ∧
      (lost = [] ∨ next.reader = .stopped ∧ next.writer = .stopped) := by
  have all := ordered.due_eq step.runs
  cases step with
  | read reading coming =>
      refine ⟨[], ?_, .inl rfl⟩
      rw [Machine.due_append, all, ← ordered.machine]
      simp [State.messages, reading, ReadLoop.messages]
  | @dropAction action rest forwarding gone =>
      refine ⟨state.reader.messages, ?_, .inr ⟨rfl, gone⟩⟩
      rw [all]
      simp [State.messages, ReadLoop.messages]
  | _ =>
      refine ⟨[], ?_, .inl rfl⟩
      rw [all]
      simp [State.messages, ReadLoop.messages, Action.messages, List.filterMap_cons, Action.message?, *]

theorem step (ordered : state.Ordered origin stream) (step : Step state move next) :
    next.Ordered origin stream := by
  refine ⟨?_, ?_, ordered.begun_step step, ordered.due_step step⟩
  · cases step with
    | @read bytes reads reading coming =>
        simp only [Machine.feed_append, ← ordered.machine]
    | _ => exact ordered.machine
  · cases step with
    | @read bytes reads reading coming =>
        have before := ordered.stream
        rw [coming, List.flatten_cons, ← List.append_assoc] at before
        exact before
    | _ => exact ordered.stream

theorem reached {allowed : Move → Prop} (ordered : start.Ordered origin stream)
    (reached : Reaches allowed start state) : state.Ordered origin stream := by
  induction reached with
  | refl => exact ordered
  | step move _ _ moved ih => exact ih.step (step?_eq_some_iff.mp moved)

end State.Ordered

theorem written_of_stopped {allowed : Move → Prop} (gone : start.writer = .stopped)
    (reached : Reaches allowed start state) :
    state.writer = .stopped ∧ state.written = start.written := by
  induction reached with
  | refl => exact ⟨gone, rfl⟩
  | step move _ _ moved ih =>
      have step := step?_eq_some_iff.mp moved
      obtain ⟨away, same⟩ := ih
      cases step <;> simp_all

/-- Whatever the peer sends, whichever loop moves when, and whether writes succeed: what is written are
the first of the messages that the machine asks for on account of the bytes read so far, in order. Of
those that the channel has taken, one at most waits behind the one that is being written. None is lost
before the outcome, and none is written after it. -/
theorem written_of_reaches (infoHash : InfoHash) (peerId : PeerId) (verify : Bool) (reads : List Bytes)
    (ending : Trouble)
    (reached : Reaches (fun _ => True)
      (State.initial (.fresh infoHash peerId verify) reads ending) state) :
    let due := (Machine.fresh infoHash peerId verify).due state.received
    let writing := state.writer.message?.toList
    state.received <+: reads.flatten ∧ state.written <+: due ∧
    (∃ accepted, Accepts (State.initial (.fresh infoHash peerId verify) reads ending) accepted state) ∧
    (∀ accepted,
      Accepts (State.initial (.fresh infoHash peerId verify) reads ending) accepted state →
        accepted <+: due ∧ (state.outcome = none → due = accepted ++ state.reader.messages) ∧
        ∃ finished waiting, state.written = finished ++ writing ∧
          accepted = finished ++ writing ++ waiting ∧ waiting.length ≤ 1) ∧
    (state.outcome.isSome = true →
      ∀ later, Reaches (fun _ => True) state later → later.written = state.written) := by
  intro due writing
  have ordered := (ordered_initial (Machine.settled_fresh infoHash peerId verify) reads ending).reached
    reached
  have coherent := (coherent_initial rfl reads ending).reached reached
  obtain ⟨lost, all, _⟩ := ordered.due
  have taken : state.written ++ state.outbound.toList <+: due := by
    change _ <+: (Machine.fresh infoHash peerId verify).due state.received
    rw [all, State.messages, List.append_assoc _ _ lost]
    exact List.prefix_append _ _
  refine ⟨⟨_, ordered.stream⟩, (List.prefix_append _ _).trans taken, exists_accepts reached, ?_, ?_⟩
  · intro accepted accepts
    rw [accepted_eq accepts rfl]
    refine ⟨taken, ?_, ?_⟩
    · intro pending
      have runs : state.writer ≠ .stopped := fun gone => coherent.outcome_ne_none gone pending
      exact ordered.due_eq (.inr runs)
    · obtain ⟨finished, begun⟩ := ordered.begun
      refine ⟨finished, state.outbound.toList, begun, by rw [begun], ?_⟩
      exact Option.length_toList_le
  · intro delivered later reachedLater
    exact (written_of_stopped (coherent.delivered.mpr delivered) reachedLater).2

/-- Our greeting is being written, and the answer to the peer's waits in the channel. -/
theorem written_of_reaches_greeted :
    let infoHash : InfoHash := ⟨List.replicate 20 0xab, rfl⟩
    let machine := Machine.fresh infoHash PeerSide.peerId true
    let start := State.initial machine [PeerSide.handshake infoHash] .endOfStream
    ∃ state, Reaches (fun _ => True) start state ∧ state.writer = .writing machine.start ∧
      state.outbound = some Extension.ourAnnouncement ∧
      state.written <+: machine.due state.received ∧
      ∃ accepted finished waiting, Accepts start accepted state ∧ accepted <+: machine.due state.received ∧
        accepted = finished ++ [machine.start] ++ waiting ∧ waiting.length ≤ 1 := by
  intro infoHash machine start
  have announced : Handshake.announcesExtensions Handshake.ourReserved = true := by decide
  have fed : machine.feed (PeerSide.handshake infoHash) =
      (Machine.idle PeerSide.peerId { machine.exchange with awaiting := .messageLength },
        Exchange.greeting PeerSide.peerId) :=
    Machine.feed_greeting rfl rfl announced
  let writing : State :=
    { start with outbound := none, writer := .writing machine.start, written := [machine.start] }
  have read : Step writing .read _ := .read rfl rfl
  rw [show writing.machine.feed _ = _ from fed] at read
  have told : Reaches (fun _ => True) start _ :=
    .step .read (.step .takeMessage .refl trivial rfl) trivial (step?_eq_some_iff.mpr read)
  have answered : Reaches (fun _ => True) start _ :=
    .step .forward (.step .forward told trivial rfl) trivial rfl
  obtain ⟨_, written, ⟨accepted, accepts⟩, bounded, _⟩ :=
    written_of_reaches infoHash PeerSide.peerId true _ .endOfStream answered
  obtain ⟨first, _, finished, waiting, _, parts, few⟩ := bounded accepted accepts
  exact ⟨_, answered, rfl, rfl, written, accepted, finished, waiting, accepts, first, parts, few⟩

end System

end Connection

end MetaExchange
