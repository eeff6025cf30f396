import Mathlib.Data.Nat.Find
import Mathlib.Logic.Function.Iterate
import MetaExchange.Proofs.Stream.Delivery

/-!
What feeding one read after the other comes to, whatever takes the frames. A handler that tells every
frame it is given (`recording`) shows where the bytes went: into the frames, in order, and what is left
of them is kept as long as frames are wanted (`feed_conserves`).
-/

namespace MetaExchange.Stream

namespace FrameHandler

variable {σ α : Type}

/-- Frames of no bytes may be asked for, one after the other, but not forever. -/
def Productive (demand : σ → Option Nat) (accept : σ → Bytes → σ × List α) : Prop :=
  ∀ state, ∃ count, demand ((fun state => (accept state []).1)^[count] state) ≠ some 0

def ofProductive (demand : σ → Option Nat) (accept : σ → Bytes → σ × List α)
    (productive : Productive demand accept) : FrameHandler σ α where
  demand
  accept
  patience state := Nat.find (productive state)
  patience_accept_nil state empty := by
    have reached := Nat.find_spec (productive state)
    cases count : Nat.find (productive state) with
    | zero =>
        rw [count] at reached
        exact absurd empty reached
    | succ fewer =>
        rw [count, Function.iterate_succ_apply] at reached
        exact Nat.lt_succ_of_le (Nat.find_min' (productive _) reached)

/-- The same handler, which also tells every frame that it takes. -/
def recording (handler : FrameHandler σ α) : FrameHandler σ (Delivery α) where
  demand := handler.demand
  accept state frame :=
    ((handler.accept state frame).1, [⟨frame, (handler.accept state frame).2⟩])
  patience := handler.patience
  patience_accept_nil := handler.patience_accept_nil

def feedAll (handler : FrameHandler σ α) (state : σ) (backlog : Backlog) : List Bytes → Fed σ α
  | [] => ⟨state, backlog, [], 0⟩
  | bytes :: rest =>
    let fed := handler.feed state backlog bytes
    let further := handler.feedAll fed.state fed.backlog rest
    { further with outputs := fed.outputs ++ further.outputs, frames := fed.frames + further.frames }

variable {demand : σ → Option Nat} {accept : σ → Bytes → σ × List α} {handler : FrameHandler σ α}
  {start last state : σ} {backlog : Backlog} {history : List (Delivery α)} {known bytes : Bytes}

theorem Run.recorded (run : handler.Run start history last) :
    handler.recording.Run start (history.map fun delivery => ⟨delivery.frame, [delivery]⟩) last := by
  induction run with
  | refl state => exact .refl state
  | deliver demanded onward ih => exact .deliver demanded ih

/-- The frames that one read completes are those that the recording handler tells. -/
theorem exists_run_feed (handler : FrameHandler σ α) (state : σ) (backlog : Backlog) (bytes : Bytes) :
    let fed := handler.feed state backlog bytes
    ∃ history left, handler.Run state history fed.state ∧
      handler.recording.feed state backlog bytes =
        ⟨fed.state, fed.backlog, history, history.length⟩ ∧
      fed.frames = history.length ∧ fed.outputs = history.flatMap (·.outputs) ∧
      backlog.toList ++ bytes = history.flatMap (·.frame) ++ left ∧
      (handler.demand fed.state = none → fed.backlog.toList = []) ∧
      ∀ size, handler.demand fed.state = some size →
        fed.backlog.toList = left ∧ left.length < size := by
  obtain ⟨history, left, run, outputs, frames, parts, rest⟩ :=
    handler.exists_run_drain state (backlog.toList ++ bytes)
  have recordedParts : backlog.toList ++ bytes =
      (history.map fun delivery => (⟨delivery.frame, [delivery]⟩ : Delivery _)).flatMap (·.frame) ++
        left := by
    simpa [List.flatMap_map] using parts
  have told := run.recorded.drain_eq recordedParts rest
  simp only [feed_eq, told, Backlog.toList_ofList]
  refine ⟨history, left, run, by simp [List.flatMap_map], frames, outputs, parts, ?_, ?_⟩
  · intro finished
    rw [finished] at rest
    exact rest
  · intro size demanded
    rw [demanded] at rest
    exact rest

/-- The bytes known so far are those of the frames in a history, and others behind them, which are kept
as long as frames are wanted. -/
structure Conserves (handler : FrameHandler σ α) (known : Bytes) (history : List (Delivery α))
    (state : σ) (backlog : Backlog) : Prop where
  parts : ∃ left, known = history.flatMap (·.frame) ++ left ∧
    (handler.demand state ≠ none → backlog.toList = left)
  finished : handler.demand state = none → backlog.toList = []

theorem conserves_empty (handler : FrameHandler σ α) (state : σ) :
    handler.Conserves [] [] state .empty :=
  ⟨⟨[], rfl, fun _ => rfl⟩, fun _ => rfl⟩

theorem Conserves.feed (conserves : handler.Conserves known history state backlog) (bytes : Bytes) :
    let fed := handler.feed state backlog bytes
    handler.Conserves (known ++ bytes)
      (history ++ (handler.recording.feed state backlog bytes).outputs) fed.state fed.backlog := by
  obtain ⟨before, whole, kept⟩ := conserves.parts
  obtain ⟨told, left, run, recorded, _, _, parts, nothing, rest⟩ :=
    handler.exists_run_feed state backlog bytes
  simp only [recorded]
  refine ⟨?_, nothing⟩
  cases demanded : handler.demand state with
  | none =>
      -- No frame was wanted any more, so that the bytes of this read were dropped too.
      obtain ⟨rfl, same⟩ := run.nil_of_finished demanded
      refine ⟨before ++ bytes, by simp [whole], fun wanted => ?_⟩
      rw [same] at wanted
      exact absurd demanded wanted
  | some size =>
      have waited : backlog.toList = before := kept (by simp [demanded])
      refine ⟨left, ?_, fun wanted => ?_⟩
      · rw [whole, List.append_assoc, ← waited, parts, List.flatMap_append, List.append_assoc]
      · obtain ⟨size, demanded⟩ := Option.ne_none_iff_exists'.mp wanted
        exact (rest size demanded).1

theorem Conserves.feedAll (conserves : handler.Conserves known history state backlog)
    (reads : List Bytes) :
    let fed := handler.feedAll state backlog reads
    let told := (handler.recording.feedAll state backlog reads).outputs
    handler.Conserves (known ++ reads.flatten) (history ++ told) fed.state fed.backlog ∧
      handler.Run state told fed.state ∧ fed.frames = told.length := by
  induction reads generalizing known history state backlog with
  | nil => exact ⟨by simpa [FrameHandler.feedAll] using conserves, .refl state, rfl⟩
  | cons bytes rest ih =>
      obtain ⟨told, _, run, recorded, frames, _⟩ := handler.exists_run_feed state backlog bytes
      have first := conserves.feed bytes
      obtain ⟨further, runFurther, framesFurther⟩ := ih first
      simp only [FrameHandler.feedAll, recorded] at further ⊢
      refine ⟨by simpa using further, run.append runFurther, ?_⟩
      rw [frames, framesFurther, List.length_append]

/-- Once no frame is wanted, no read delivers one, and nothing of it is kept. -/
theorem feedAll_of_finished (finished : handler.demand state = none) (nothing : backlog.toList = [])
    (reads : List Bytes) : handler.feedAll state backlog reads = ⟨state, backlog, [], 0⟩ := by
  induction reads with
  | nil => rfl
  | cons bytes rest ih =>
      have dropped : Backlog.ofList [] = backlog := by
        ext1
        simp [nothing]
      simp only [feedAll, feed_eq, handler.drain_of_finished _ finished, dropped, ih, List.append_nil]

/-- Whatever takes the frames, and whatever the reads before this one were: each frame that is delivered
has the size that was demanded just before, and the read returns how many it delivers. As long as frames
are wanted, those delivered so far and the bytes kept make up all that was fed, and fewer bytes are kept
than the next frame has. Once no frame is wanted, the frames delivered are the start of what was fed,
nothing is kept, and no further read delivers a frame. -/
theorem feed_conserves (productive : Productive demand accept) (start : σ) (reads : List Bytes)
    (bytes : Bytes) :
    let handler := ofProductive demand accept productive
    let past := handler.feedAll start .empty reads
    let fed := handler.feed past.state past.backlog bytes
    let told := (handler.recording.feedAll start .empty reads).outputs
    let telling := (handler.recording.feed past.state past.backlog bytes).outputs
    handler.Run start told past.state ∧ handler.Run past.state telling fed.state ∧
      fed.frames = telling.length ∧
      (∀ size, demand fed.state = some size →
        (told ++ telling).flatMap (·.frame) ++ fed.backlog.toList = reads.flatten ++ bytes ∧
          fed.backlog.size < size) ∧
      (demand fed.state = none →
        (told ++ telling).flatMap (·.frame) <+: reads.flatten ++ bytes ∧ fed.backlog.size = 0 ∧
          ∀ later, (handler.feedAll fed.state fed.backlog later).frames = 0 ∧
            (handler.recording.feedAll fed.state fed.backlog later).outputs = []) := by
  intro handler past fed told telling
  obtain ⟨before, runBefore, _⟩ := (handler.conserves_empty start).feedAll reads
  obtain ⟨history, left, run, recorded, frames, _, _, _, rest⟩ :=
    handler.exists_run_feed past.state past.backlog bytes
  have listed : telling = history := congrArg Fed.outputs recorded
  have now : handler.Conserves (reads.flatten ++ bytes) (told ++ telling) fed.state fed.backlog :=
    before.feed bytes
  obtain ⟨dropped, whole, kept⟩ := now.parts
  rw [← listed] at run frames
  refine ⟨runBefore, run, frames, fun size demanded => ?_, fun finished => ?_⟩
  · have wanted : handler.demand fed.state ≠ none := by
      change demand fed.state ≠ none
      rw [demanded]
      exact Option.some_ne_none size
    obtain ⟨same, few⟩ := rest size demanded
    refine ⟨by rw [whole, kept wanted], ?_⟩
    rw [← Backlog.length_toList, same]
    exact few
  · have empty : fed.backlog.toList = [] := now.finished finished
    refine ⟨⟨dropped, whole.symm⟩, ?_, fun later => ⟨?_, ?_⟩⟩
    · rw [← Backlog.length_toList, empty, List.length_nil]
    · rw [handler.feedAll_of_finished finished empty]
    · rw [handler.recording.feedAll_of_finished finished empty]

/-- Frames of two bytes, of none and of one are wanted, and two reads bring one byte more than these. -/
theorem feed_conserves_listedSizes :
    let accept (sizes : List Nat) (frame : Bytes) := (sizes.tail, [frame])
    ∃ productive : Productive List.head? accept,
      let handler := ofProductive List.head? accept productive
      let past := handler.feedAll [2, 0, 1] .empty [[7]]
      let fed := handler.feed past.state past.backlog [8, 9, 10]
      handler.demand fed.state = none ∧ fed.frames = 3 ∧ fed.outputs = [[7, 8], [], [9]] ∧
        fed.backlog.size = 0 ∧ ∀ later, (handler.feedAll fed.state fed.backlog later).frames = 0 := by
  intro accept
  have productive : Productive List.head? accept := by
    intro sizes
    refine ⟨sizes.length, ?_⟩
    induction sizes with
    | nil => simp
    | cons size rest ih => exact ih
  refine ⟨productive, ?_⟩
  intro handler past fed
  obtain ⟨_, _, _, _, finished⟩ := feed_conserves productive [2, 0, 1] [[7]] [8, 9, 10]
  have run : handler.Run [2, 0, 1] [⟨[7, 8], [[7, 8]]⟩, ⟨[], [[]]⟩, ⟨[9], [[9]]⟩] [] :=
    .deliver rfl (.deliver rfl (.deliver rfl (.refl [])))
  have parts : [7, 8, 9, 10] = [7, 8, 9] ++ ([10] : Bytes) := rfl
  have drained : handler.drain [2, 0, 1] [7, 8, 9, 10] = ⟨[], [], [[7, 8], [], [9]], 3⟩ :=
    run.drain_eq parts rfl
  have told : fed = ⟨[], .ofList [], [[7, 8], [], [9]], 3⟩ := by
    have whole := handler.feed_eq past.state past.backlog [8, 9, 10]
    rw [show handler.drain past.state (past.backlog.toList ++ [8, 9, 10]) = _ from drained] at whole
    exact whole
  have wanted : handler.demand fed.state = none := by rw [told]; rfl
  obtain ⟨_, kept, later⟩ := finished wanted
  exact ⟨wanted, by rw [told], by rw [told], kept, fun reads => (later reads).1⟩

end FrameHandler

end MetaExchange.Stream
