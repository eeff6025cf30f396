import MetaExchange.Stream.Backlog

/-!
Cutting a stream of bytes into frames. Reads come in any size; whoever takes the frames says before
each one how large it has to be, and says nothing any more when no further frame is wanted.

`drain` says what happens to a list of bytes: `drain_of_finished`, `drain_of_isShort` and
`drain_of_frame` say it step by step. `feed` does the same to what waits and what comes, and only skips
the search for a frame while there are too few bytes for one; `feed_eq` says so.
-/

namespace MetaExchange.Stream

/-- Takes frames, and says how large the next one is to be. A frame of no bytes may be asked for, but
not forever. -/
structure FrameHandler (σ α : Type) where
  /-- The size of the next frame; nothing if no frame is wanted. -/
  demand : σ → Option Nat
  accept : σ → Bytes → σ × List α
  /-- How many frames of no bytes may still be asked for in a row. -/
  patience : σ → Nat
  patience_accept_nil :
    ∀ state, demand state = some 0 → patience (accept state []).1 < patience state

structure Drained (σ α : Type) where
  state : σ
  rest : Bytes
  outputs : List α
  frames : Nat

namespace FrameHandler

variable {σ α : Type}

/-- Cuts off frames as long as the next one is there. The bytes behind the last frame wanted are
dropped. -/
def drain (handler : FrameHandler σ α) (state : σ) (bytes : Bytes) : Drained σ α :=
  go state bytes [] 0
where
  /-- Goes on after `frames` frames, of which came `found`, newest first. -/
  go (state : σ) (bytes : Bytes) (found : List α) (frames : Nat) : Drained σ α :=
    match _demanded : handler.demand state with
    | none => ⟨state, [], found.reverse, frames⟩
    | some size =>
      match _split : bytes.splitAt? size with
      | none => ⟨state, bytes, found.reverse, frames⟩
      | some (frame, rest) =>
        go (handler.accept state frame).1 rest ((handler.accept state frame).2.reverseAux found)
          (frames + 1)
  termination_by (bytes.length, handler.patience state)
  decreasing_by
    obtain ⟨taken, left⟩ := Bytes.length_of_splitAt? _split
    cases size with
    | zero =>
      have same : rest.length = bytes.length := by omega
      rw [List.eq_nil_of_length_eq_zero taken, same]
      exact Prod.Lex.right _ (handler.patience_accept_nil state _demanded)
    | succ size => exact Prod.Lex.left _ _ (by omega)

theorem drain_go_append (handler : FrameHandler σ α) (state : σ) (bytes : Bytes)
    (found before : List α) (frames counted : Nat) :
    drain.go handler state bytes (found ++ before) (frames + counted) =
      let drained := drain.go handler state bytes found frames
      { drained with
        outputs := before.reverse ++ drained.outputs
        frames := drained.frames + counted } := by
  fun_induction drain.go handler state bytes found frames with
  | case1 state bytes found frames finished =>
    unfold drain.go
    split <;> simp_all
  | case2 state bytes found frames size demanded short =>
    unfold drain.go
    split
    · simp_all
    · split <;> simp_all
  | case3 state bytes found frames size demanded frame rest taken ih =>
    conv => lhs; unfold drain.go
    split
    · simp_all
    · next other again =>
      cases again.symm.trans demanded
      split
      · simp_all
      · next front back cut =>
        cases cut.symm.trans taken
        simpa only [List.reverseAux_eq, List.append_assoc, Nat.add_right_comm] using ih

theorem drain_of_finished (handler : FrameHandler σ α) {state : σ} (bytes : Bytes)
    (finished : handler.demand state = none) : handler.drain state bytes = ⟨state, [], [], 0⟩ := by
  unfold drain drain.go
  split <;> simp_all

theorem drain_of_frame (handler : FrameHandler σ α) {state : σ} {bytes : Bytes} {size : Nat}
    (demanded : handler.demand state = some size) (enough : size ≤ bytes.length) :
    handler.drain state bytes =
      let (next, outputs) := handler.accept state (bytes.take size)
      let drained := handler.drain next (bytes.drop size)
      { drained with outputs := outputs ++ drained.outputs, frames := drained.frames + 1 } := by
  have taken : bytes.splitAt? size = some (bytes.take size, bytes.drop size) := by
    rw [Bytes.splitAt?_eq, if_pos enough]
  unfold drain
  conv => lhs; unfold drain.go
  split
  · simp_all
  · next other again =>
    cases again.symm.trans demanded
    split
    · simp_all
    · next front back cut =>
      cases cut.symm.trans taken
      have shifted := handler.drain_go_append (handler.accept state (bytes.take size)).1
        (bytes.drop size) [] (handler.accept state (bytes.take size)).2.reverse 0 1
      simpa [List.reverseAux_eq] using shifted

end FrameHandler

structure Fed (σ α : Type) where
  state : σ
  backlog : Backlog
  outputs : List α
  frames : Nat

namespace FrameHandler

variable {σ α : Type}

/-- Whether bytes are still wanted, and `count` of them are too few for the next frame. -/
def isShort (handler : FrameHandler σ α) (state : σ) (count : Nat) : Bool :=
  match handler.demand state with
  | none => false
  | some size => count < size

def feed (handler : FrameHandler σ α) (state : σ) (backlog : Backlog) (bytes : Bytes) : Fed σ α :=
  let waiting := backlog.append bytes
  if handler.isShort state waiting.size then ⟨state, waiting, [], 0⟩
  else
    let drained := handler.drain state waiting.toList
    ⟨drained.state, .ofList drained.rest, drained.outputs, drained.frames⟩

theorem drain_of_isShort (handler : FrameHandler σ α) {state : σ} {bytes : Bytes}
    (short : handler.isShort state bytes.length) :
    handler.drain state bytes = ⟨state, bytes, [], 0⟩ := by
  unfold isShort at short
  split at short
  · contradiction
  · next size demanded =>
    have few : bytes.splitAt? size = none := by
      rw [Bytes.splitAt?_eq, if_neg (by simpa using short)]
    unfold drain drain.go
    split
    · simp_all
    · split <;> simp_all

theorem feed_eq (handler : FrameHandler σ α) (state : σ) (backlog : Backlog) (bytes : Bytes) :
    handler.feed state backlog bytes =
      let drained := handler.drain state (backlog.toList ++ bytes)
      ⟨drained.state, .ofList drained.rest, drained.outputs, drained.frames⟩ := by
  unfold feed
  dsimp only
  rw [Backlog.toList_append]
  split
  · next short =>
    rw [← Backlog.length_toList, Backlog.toList_append] at short
    rw [handler.drain_of_isShort short]
    congr 1
    ext1
    simp
  · rfl

end FrameHandler

end MetaExchange.Stream
