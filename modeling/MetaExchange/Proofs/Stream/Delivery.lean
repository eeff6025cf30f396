import MetaExchange.Stream.Reassembler

/-!
What draining a stream comes to, whatever takes the frames.

`drain_append` says that a stream may be drained in two parts. `Run` is the sequence of frames that were
handed on, each of the size demanded just before, and `exists_run_drain` finds it behind every draining:
no byte is lost, doubled or moved.
-/

namespace MetaExchange.Stream

structure Delivery (α : Type) where
  frame : Bytes
  outputs : List α

theorem exists_delivery_of_outputs {α : Type} {history : List (Delivery α)} {before behind : List α}
    {output : α} (parts : history.flatMap (·.outputs) = before ++ output :: behind) :
    ∃ earlier delivery later front back, history = earlier ++ delivery :: later ∧
      delivery.outputs = front ++ output :: back ∧
      before = earlier.flatMap (·.outputs) ++ front ∧
      behind = back ++ later.flatMap (·.outputs) := by
  induction history generalizing before with
  | nil => simp at parts
  | cons first history ih =>
      rw [List.flatMap_cons] at parts
      rcases List.append_eq_append_iff.mp parts with ⟨between, rfl, onward⟩ | ⟨back, here, tail⟩
      · obtain ⟨earlier, delivery, later, front, back, rfl, shape, rfl, rfl⟩ := ih onward
        exact ⟨first :: earlier, delivery, later, front, back, rfl, shape, by simp, rfl⟩
      · cases back with
        | nil =>
            obtain ⟨earlier, delivery, later, front, back, rfl, shape, nothing, rfl⟩ :=
              ih (tail.symm.trans (List.nil_append _).symm)
            obtain ⟨none, rfl⟩ := List.nil_eq_append_iff.mp nothing
            refine ⟨first :: earlier, delivery, later, [], back, rfl, shape, ?_, rfl⟩
            simpa [none] using here.symm
        | cons output back =>
            cases tail
            exact ⟨[], first, history, before, back, rfl, here, rfl, rfl⟩

namespace FrameHandler

variable {σ α : Type} {handler : FrameHandler σ α}

theorem drain_of_short (handler : FrameHandler σ α) {state : σ} {bytes : Bytes} {size : Nat}
    (demanded : handler.demand state = some size) (few : bytes.length < size) :
    handler.drain state bytes = ⟨state, bytes, [], 0⟩ :=
  handler.drain_of_isShort (by simp [isShort, demanded, few])

/-- The three ways in which draining goes on, as an induction principle. It hides the measure by which
draining ends. -/
@[elab_as_elim]
theorem drain_induction (handler : FrameHandler σ α) {motive : σ → Bytes → Prop}
    (finished : ∀ state bytes, handler.demand state = none → motive state bytes)
    (short : ∀ state bytes size, handler.demand state = some size → bytes.length < size →
      motive state bytes)
    (frame : ∀ state bytes size, handler.demand state = some size → size ≤ bytes.length →
      motive (handler.accept state (bytes.take size)).1 (bytes.drop size) → motive state bytes)
    (state : σ) (bytes : Bytes) : motive state bytes := by
  fun_induction drain.go handler state bytes [] 0 with
  | case1 state bytes found frames none => exact finished state bytes none
  | case2 state bytes found frames size demanded uncut =>
      rw [Bytes.splitAt?_eq] at uncut
      split at uncut
      · cases uncut
      · exact short state bytes size demanded (by omega)
  | case3 state bytes found frames size demanded front rest cut ih =>
      rw [Bytes.splitAt?_eq] at cut
      split at cut
      · next enough =>
          cases cut
          exact frame state bytes size demanded enough ih
      · cases cut

/-- A stream may be drained in two parts: what the first part leaves goes in front of the second. -/
theorem drain_append (handler : FrameHandler σ α) (state : σ) (bytes more : Bytes) :
    handler.drain state (bytes ++ more) =
      let first := handler.drain state bytes
      let second := handler.drain first.state (first.rest ++ more)
      ⟨second.state, second.rest, first.outputs ++ second.outputs, first.frames + second.frames⟩ := by
  induction state, bytes using handler.drain_induction with
  | finished state bytes none => simp [handler.drain_of_finished _ none]
  | short state bytes size demanded few => simp [handler.drain_of_short demanded few]
  | frame state bytes size demanded enough ih =>
      have enoughOfBoth : size ≤ (bytes ++ more).length := by
        rw [List.length_append]
        omega
      rw [handler.drain_of_frame demanded enoughOfBoth, handler.drain_of_frame demanded enough,
        List.take_append_of_le_length enough, List.drop_append_of_le_length enough]
      dsimp only
      rw [ih]
      simp only [List.append_assoc, Nat.add_right_comm]

theorem drain_nil (handler : FrameHandler σ α) {state : σ} (wanted : handler.demand state ≠ some 0) :
    handler.drain state [] = ⟨state, [], [], 0⟩ := by
  cases demanded : handler.demand state with
  | none => exact handler.drain_of_finished [] demanded
  | some size =>
      have positive : 0 < size := by
        rw [demanded] at wanted
        exact Nat.pos_of_ne_zero fun zero => wanted (congrArg some zero)
      exact handler.drain_of_short demanded positive

theorem drain_frame (handler : FrameHandler σ α) {state : σ} {frame : Bytes}
    (demanded : handler.demand state = some frame.length)
    (wanted : handler.demand (handler.accept state frame).1 ≠ some 0) :
    handler.drain state frame =
      ⟨(handler.accept state frame).1, [], (handler.accept state frame).2, 1⟩ := by
  rw [handler.drain_of_frame demanded (Nat.le_refl _), List.take_length, List.drop_length]
  dsimp only
  rw [handler.drain_nil wanted, List.append_nil]

/-- One frame after the other is handed on, each of the size demanded just before. -/
inductive Run (handler : FrameHandler σ α) : σ → List (Delivery α) → σ → Prop where
  | refl (state : σ) : Run handler state [] state
  | deliver {state last : σ} {frame : Bytes} {history : List (Delivery α)}
      (demanded : handler.demand state = some frame.length)
      (onward : Run handler (handler.accept state frame).1 history last) :
      Run handler state (⟨frame, (handler.accept state frame).2⟩ :: history) last

namespace Run

variable {start last : σ} {history earlier later : List (Delivery α)}

theorem split (run : handler.Run start (earlier ++ later) last) :
    ∃ middle, handler.Run start earlier middle ∧ handler.Run middle later last := by
  induction earlier generalizing start with
  | nil => exact ⟨start, .refl start, run⟩
  | cons delivery earlier ih =>
      cases run with
      | deliver demanded onward =>
          obtain ⟨middle, before, after⟩ := ih onward
          exact ⟨middle, .deliver demanded before, after⟩

theorem append {middle : σ} (first : handler.Run start earlier middle)
    (second : handler.Run middle later last) : handler.Run start (earlier ++ later) last := by
  induction first with
  | refl state => exact second
  | deliver demanded onward ih => exact .deliver demanded (ih second)

/-- Every frame of a run was demanded in the state that the frames before it lead to. -/
theorem exists_taker {delivery : Delivery α}
    (run : handler.Run start (earlier ++ delivery :: later) last) :
    ∃ taker, handler.Run start earlier taker ∧
      handler.demand taker = some delivery.frame.length ∧
      delivery.outputs = (handler.accept taker delivery.frame).2 := by
  obtain ⟨taker, before, after⟩ := run.split
  cases after with
  | deliver demanded onward => exact ⟨taker, before, demanded, rfl⟩

/-- One more frame may follow a run. -/
theorem concat {middle next : σ} {frame : Bytes} {outputs : List α}
    (run : handler.Run start history middle) (demanded : handler.demand middle = some frame.length)
    (accepted : handler.accept middle frame = (next, outputs)) :
    handler.Run start (history ++ [⟨frame, outputs⟩]) next := by
  have last := Run.deliver demanded (.refl (handler.accept middle frame).1)
  rw [accepted] at last
  exact run.append last

/-- A run that goes as far as its bytes allow is what draining them does. -/
theorem drain_eq {bytes left rest : Bytes} (run : handler.Run start history last)
    (parts : bytes = history.flatMap (·.frame) ++ left)
    (stops : match handler.demand last with
      | none => rest = []
      | some size => rest = left ∧ left.length < size) :
    handler.drain start bytes = ⟨last, rest, history.flatMap (·.outputs), history.length⟩ := by
  induction run generalizing bytes with
  | refl state =>
      subst parts
      cases demanded : handler.demand state with
      | none =>
          rw [demanded] at stops
          rw [handler.drain_of_finished _ demanded, stops]
          rfl
      | some size =>
          rw [demanded] at stops
          obtain ⟨rfl, few⟩ := stops
          exact handler.drain_of_short demanded few
  | @deliver state last frame history demanded onward ih =>
      have cut : bytes = frame ++ (history.flatMap (·.frame) ++ left) := by simpa using parts
      rw [handler.drain_of_frame demanded (by simp [cut]), cut, List.take_left, List.drop_left]
      dsimp only
      rw [ih rfl stops]
      simp

theorem nil_of_finished (run : handler.Run start history last)
    (finished : handler.demand start = none) : history = [] ∧ last = start := by
  cases run with
  | refl => exact ⟨rfl, rfl⟩
  | deliver demanded onward =>
      rw [finished] at demanded
      cases demanded

/-- What holds at first, and is kept by every frame, holds in the end. It may speak of all that was
handed on so far. -/
theorem invariant {motive : List (Delivery α) → σ → Prop} (run : handler.Run start history last)
    (initially : motive [] start)
    (kept : ∀ past state frame, motive past state → handler.demand state = some frame.length →
      motive (past ++ [⟨frame, (handler.accept state frame).2⟩]) (handler.accept state frame).1) :
    motive history last := by
  suffices general : ∀ past, motive past start → motive (past ++ history) last from general [] initially
  clear initially
  induction run with
  | refl state =>
      intro past now
      simpa using now
  | @deliver state last frame history demanded onward ih =>
      intro past now
      simpa using ih _ (kept past state frame now demanded)

end Run

/-- Behind every draining there is a run, which hands on the drained bytes in order. What is left of
them is still there, unless no frame is wanted any more. -/
theorem exists_run_drain (handler : FrameHandler σ α) (state : σ) (bytes : Bytes) :
    let drained := handler.drain state bytes
    ∃ history left, handler.Run state history drained.state ∧
      drained.outputs = history.flatMap (·.outputs) ∧
      drained.frames = history.length ∧
      bytes = history.flatMap (·.frame) ++ left ∧
      match handler.demand drained.state with
      | none => drained.rest = []
      | some size => drained.rest = left ∧ left.length < size := by
  induction state, bytes using handler.drain_induction with
  | finished state bytes none =>
      rw [handler.drain_of_finished _ none]
      exact ⟨[], bytes, .refl state, rfl, rfl, rfl, by simp [none]⟩
  | short state bytes size demanded few =>
      rw [handler.drain_of_short demanded few]
      exact ⟨[], bytes, .refl state, rfl, rfl, rfl, by simp [demanded, few]⟩
  | frame state bytes size demanded enough ih =>
      rw [handler.drain_of_frame demanded enough]
      obtain ⟨history, left, run, outputs, frames, parts, rest⟩ := ih
      have sized : (bytes.take size).length = size := List.length_take_of_le enough
      refine ⟨_ :: history, left, .deliver (by rw [sized]; exact demanded) run, ?_, ?_, ?_, rest⟩
      · simp [outputs]
      · simp [frames]
      · rw [List.flatMap_cons, List.append_assoc, ← parts, List.take_append_drop]

end FrameHandler

end MetaExchange.Stream
