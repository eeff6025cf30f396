import MetaExchange.Proofs.Connection.Promise

/-!
The two loops always come to an outcome. While none is delivered there is a move
(`State.Coherent.can_move`), and every move takes something from `State.budget`, so that they cannot go on
without an outcome for ever.
-/

namespace MetaExchange.Connection

/-- What the reader's part can still lead to, in moves. An action counts threefold: it is handed on,
taken, and perhaps written. -/
def ReadLoop.budget (machine : Machine) (reads : List Bytes) : ReadLoop → Nat
  | .reading => 3 * (machine.feedAll reads).2.length + 2 * reads.length + 3
  | .forwarding actions =>
    3 * actions.length + 3 * (machine.feedAll reads).2.length + 2 * reads.length + 4
  | .reporting _ => 2
  | .stopped => 0

def WriteLoop.budget : WriteLoop → Nat
  | .selecting => 1
  | .writing _ => 2
  | .stopped => 0

namespace System

/-- The reader waits for bytes, or has handed on all it had and turns to them. -/
def State.AwaitsRead (state : State) : Prop :=
  state.reader = .reading ∨ state.reader = .forwarding [] ∧ state.machine.isFinished = false

def State.AwaitsWrite (state : State) : Prop := ∃ message, state.writer = .writing message

/-- In this state the move puts something in one of the channels, or takes it out. -/
def State.UsesChannel (state : State) : Move → Prop
  | .forward => state.reader ≠ .forwarding []
  | .report | .takeMessage | .takeNotice => True
  | _ => False

/-- Whoever moves, as long as it is by allowed moves, a state with the property comes, and until then
there is such a move. -/
inductive Inevitable (allowed : Move → Prop) (goal : State → Prop) : State → Prop where
  | now {state : State} (reached : goal state) : Inevitable allowed goal state
  | later {state : State} (possible : ∃ move next, allowed move ∧ state.step? move = some next)
      (always : ∀ move next, allowed move → state.step? move = some next →
        Inevitable allowed goal next) : Inevitable allowed goal state

/-- More than the number of moves that are left. -/
def State.budget (state : State) : Nat :=
  state.reader.budget state.machine state.reads + state.writer.budget +
    2 * state.outbound.toList.length + state.notice.toList.length

variable {state next : State} {move : Move} {expected : Outcome}

theorem budget_step (step : Step state move next) : next.budget < state.budget := by
  -- Each case brings the equations that its sums need.
  cases step <;>
    simp only [State.budget, ReadLoop.budget, WriteLoop.budget, Machine.feedAll_cons,
      Option.toList_some, Option.toList_none, List.length_append, List.length_cons, List.length_nil,
      *] <;>
    omega

/-- A property comes at last if something can happen until it does, in every state that is met. -/
theorem inevitable_of_can_move {allowed : Move → Prop} {goal motive : State → Prop}
    (kept : ∀ state move next, motive state → allowed move → Step state move next → motive next)
    (possible : ∀ state, motive state → ¬ goal state →
      ∃ move next, allowed move ∧ Step state move next)
    (state : State) (now : motive state) : Inevitable allowed goal state := by
  induction bound : state.budget using Nat.strongRecOn generalizing state with
  | ind budget ih =>
      by_cases reached : goal state
      · exact .now reached
      · obtain ⟨move, next, permitted, step⟩ := possible state now reached
        refine .later ⟨move, next, permitted, step?_eq_some_iff.mpr step⟩ ?_
        intro move next permitted moved
        have step := step?_eq_some_iff.mp moved
        exact ih next.budget (bound ▸ budget_step step) next (kept state move next now permitted step) rfl

/-- A reader that finds both channels empty can go on: the outcome is not behind it. -/
theorem State.Coherent.reader_can_move (coherent : state.Coherent expected)
    (present : state.writer ≠ .stopped) (unsent : state.outbound = none)
    (untold : state.notice = none) :
    state.AwaitsRead ∨ ∃ move next, Step state move next ∧ state.UsesChannel move := by
  have stored := coherent.promised (coherent.outcome_eq_none present)
  rw [State.promised, untold] at stored
  cases reader : state.reader with
  | reading => exact .inl (.inl reader)
  | forwarding actions =>
      cases actions with
      | nil =>
          cases finished : state.machine.isFinished with
          | false => exact .inl (.inr ⟨reader, finished⟩)
          | true =>
              rw [reader, ReadLoop.promised, comingOutcome?, finished] at stored
              cases stored
      | cons action rest =>
          have busy : state.reader ≠ .forwarding [] := by simp [reader]
          cases action with
          | send message => exact .inr ⟨_, _, .handMessage reader present unsent, busy⟩
          | report event => exact .inr ⟨_, _, .handEvent reader present untold, busy⟩
  | reporting trouble => exact .inr ⟨_, _, .handTrouble reader present untold, trivial⟩
  | stopped =>
      rw [reader] at stored
      cases stored

/-- Until there is an outcome, the reader waits for the peer, or the writer does, or something can be put
in a channel or taken out of it. -/
theorem State.Coherent.can_move (coherent : state.Coherent expected) (pending : state.outcome = none) :
    state.AwaitsRead ∨ state.AwaitsWrite ∨
      ∃ move next, Step state move next ∧ state.UsesChannel move := by
  cases writer : state.writer with
  | stopped => exact absurd pending (coherent.outcome_ne_none writer)
  | writing message => exact .inr (.inl ⟨message, writer⟩)
  | selecting =>
      cases outbound : state.outbound with
      | some message => exact .inr (.inr ⟨_, _, .takeMessage writer outbound, trivial⟩)
      | none =>
          cases notice : state.notice with
          | some waiting =>
              cases ends : waiting.outcome? with
              | none => exact .inr (.inr ⟨_, _, .takeEvent writer notice ends, trivial⟩)
              | some outcome => exact .inr (.inr ⟨_, _, .takeOutcome writer notice ends, trivial⟩)
          | none =>
              have present : state.writer ≠ .stopped := by simp [writer]
              exact (coherent.reader_can_move present outbound notice).imp_right .inr

theorem exists_step_of_awaitsRead (waits : state.AwaitsRead) :
    ∃ move next, move.Proceeds ∧ Step state move next := by
  rcases waits with reading | ⟨forwarded, ongoing⟩
  · cases coming : state.reads with
    | nil => exact ⟨_, _, by simp [Move.Proceeds], .readEnd reading coming⟩
    | cons bytes reads => exact ⟨_, _, by simp [Move.Proceeds], .read reading coming⟩
  · exact ⟨_, _, by simp [Move.Proceeds], .goOn forwarded ongoing⟩

theorem State.Coherent.exists_step (coherent : state.Coherent expected)
    (pending : state.outcome = none) :
    ∃ move next, move.Proceeds ∧ Step state move next := by
  rcases coherent.can_move pending with waits | ⟨message, writing⟩ | ⟨move, next, step, uses⟩
  · exact exists_step_of_awaitsRead waits
  · exact ⟨_, _, by simp [Move.Proceeds], .finishWrite writing⟩
  · refine ⟨move, next, ?_, step⟩
    intro cause same
    subst same
    exact uses

theorem State.Coherent.step?_giveUp (coherent : state.Coherent expected) :
    state.step? .giveUp = none := by
  rw [Option.eq_none_iff_forall_ne_some]
  intro next moved
  exact coherent.not_giveUp (step?_eq_some_iff.mp moved)

/-- The two loops never get stuck and never end without a result, however the peer and the connection
behave. While there is no outcome, one of them waits for the connection or can use a channel; the writer
does not stop before there is one, and never finds itself abandoned; and every run comes to one. -/
theorem never_stuck_of_reaches (infoHash : InfoHash) (peerId : PeerId) (verify : Bool) (reads : List Bytes)
    (ending : Trouble)
    (reached : Reaches (fun _ => True)
      (State.initial (.fresh infoHash peerId verify) reads ending) state) :
    (state.outcome = none →
      state.AwaitsRead ∨ state.AwaitsWrite ∨
        ∃ move next, state.step? move = some next ∧ state.UsesChannel move) ∧
    (state.writer = .stopped → state.outcome.isSome = true) ∧
    state.step? .giveUp = none ∧
    Inevitable (fun _ => True) (fun later => later.outcome.isSome = true) state := by
  have coherent := (coherent_initial rfl reads ending).reached reached
  refine ⟨?_, coherent.delivered.mp, coherent.step?_giveUp, ?_⟩
  · intro pending
    simpa only [step?_eq_some_iff] using coherent.can_move pending
  · refine inevitable_of_can_move (motive := fun state => state.Coherent _) ?_ ?_ state coherent
    · intro state move next now _ step
      exact now.step step
    · intro state now pending
      obtain ⟨move, next, _, step⟩ := now.exists_step (Option.not_isSome_iff_eq_none.mp pending)
      exact ⟨move, next, trivial, step⟩

/-- Our greeting is being written to a peer that has closed the connection, and the reader, which knows,
has reported it. -/
theorem never_stuck_of_reaches_closed :
    let infoHash : InfoHash := ⟨List.replicate 20 0xab, rfl⟩
    let start := State.initial (.fresh infoHash PeerSide.peerId true) [] .endOfStream
    ∃ state, Reaches (fun _ => True) start state ∧ state.outcome = none ∧ state.AwaitsWrite ∧
      state.reader = .stopped ∧ state.step? .giveUp = none ∧
      Inevitable (fun _ => True) (fun later => later.outcome.isSome = true) state := by
  intro infoHash start
  have greeting : Reaches (fun _ => True) start _ := .step .takeMessage .refl trivial rfl
  have reported : Reaches (fun _ => True) start _ :=
    .step .report (.step .read greeting trivial rfl) trivial rfl
  obtain ⟨_, _, never, comes⟩ :=
    never_stuck_of_reaches infoHash PeerSide.peerId true [] .endOfStream reported
  exact ⟨_, reported, rfl, ⟨_, rfl⟩, rfl, never, comes⟩

end System

end MetaExchange.Connection
