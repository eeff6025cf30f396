import MetaExchange.Proofs.Exchange.Checked
import MetaExchange.Proofs.Machine.History
import MetaExchange.Proofs.Stream.Feeding

namespace MetaExchange.Machine

open Exchange (Action Account frameHandler)

/-- How a read leaves a machine: the exchange has ended and nothing is kept, or fewer bytes are kept than
the next frame has, and the size of that frame is within the limits. -/
def WellFormed (machine : Machine) : Prop :=
  machine.exchange.awaiting.Limited ∧
    (machine.isFinished = true ∧ machine.backlog.toList = [] ∧ machine.exchange.table = none ∨
      ∃ size, machine.exchange.awaiting.frameSize = some size ∧ machine.backlog.size < size ∧
        1 ≤ size ∧ size ≤ Message.maxLength)

variable {infoHash : InfoHash} {verify : Bool} {history : List (Stream.Delivery Action)}
  {start last : Exchange}

theorem limited_of_run (run : frameHandler.Run start history last)
    (limited : start.awaiting.Limited) : last.awaiting.Limited := by
  apply invariant_of_step (motive := fun _ exchange => exchange.awaiting.Limited) run limited
  intro past exchange frame next actions limited step
  exact Exchange.limited_step limited step

theorem length_le_of_run (run : frameHandler.Run start history last)
    (limited : start.awaiting.Limited) :
    history.length ≤ (history.flatMap (·.frame)).length := by
  induction run with
  | refl state => exact Nat.le_refl 0
  | @deliver state last frame history demanded onward ih =>
      have positive := (limited.frameSize demanded).1
      have further := ih (Exchange.limited_step limited (Exchange.step_accept demanded))
      simp only [List.length_cons, List.flatMap_cons, List.length_append]
      omega

/-- The frames that one read delivers, and what is kept of it. -/
theorem exists_run_feed (machine : Machine) (bytes : Bytes) :
    let fed := frameHandler.feed machine.exchange machine.backlog bytes
    ∃ history left, frameHandler.Run machine.exchange history (machine.feed bytes).1.exchange ∧
      history.length = fed.frames ∧ (machine.feed bytes).2 = history.flatMap (·.outputs) ∧
      machine.backlog.toList ++ bytes = history.flatMap (·.frame) ++ left ∧
      (frameHandler.demand (machine.feed bytes).1.exchange = none →
        (machine.feed bytes).1.backlog.toList = []) ∧
      ∀ size, frameHandler.demand (machine.feed bytes).1.exchange = some size →
        (machine.feed bytes).1.backlog.toList = left ∧ left.length < size := by
  intro fed
  obtain ⟨history, left, run, _, frames, outputs, parts, rest⟩ :=
    Stream.FrameHandler.exists_run_feed frameHandler machine.exchange machine.backlog bytes
  exact ⟨history, left, run, frames.symm, outputs, parts, rest⟩

/-- Nothing but the start of the next frame is kept back. -/
theorem wellFormed_of_rest {machine : Machine} {left : Bytes}
    (run : frameHandler.Run (.fresh infoHash verify) history machine.exchange)
    (nothing : frameHandler.demand machine.exchange = none → machine.backlog.toList = [])
    (rest : ∀ size, frameHandler.demand machine.exchange = some size →
      machine.backlog.toList = left ∧ left.length < size) : machine.WellFormed := by
  have limited := limited_of_run run trivial
  refine ⟨limited, ?_⟩
  cases demanded : machine.exchange.awaiting.frameSize with
  | none =>
      have finished : machine.isFinished = true := demand_eq_none_iff.mp demanded
      exact .inl ⟨finished, nothing demanded, (account_of_run run).tableless finished⟩
  | some size =>
      obtain ⟨kept, few⟩ := rest size demanded
      obtain ⟨positive, short⟩ := limited.frameSize demanded
      refine .inr ⟨size, rfl, ?_, positive, short⟩
      rw [← Stream.Backlog.length_toList, kept]
      exact few

/-- Every frame of a run was awaited, and no check fails on it. -/
theorem accept?_of_run {past earlier later : List (Stream.Delivery Action)}
    {delivery : Stream.Delivery Action} (before : frameHandler.Run (.fresh infoHash verify) past start)
    (run : frameHandler.Run start (earlier ++ delivery :: later) last) :
    ∃ taker, frameHandler.Run start earlier taker ∧
      taker.awaiting.frameSize = some delivery.frame.length ∧ 1 ≤ delivery.frame.length ∧
      taker.accept? delivery.frame = some (taker.accept delivery.frame) ∧
      delivery.outputs = (taker.accept delivery.frame).2 := by
  obtain ⟨taker, onward, demanded, outputs⟩ := run.exists_taker
  have whole := before.append onward
  have limited := limited_of_run whole trivial
  exact ⟨taker, onward, demanded, (limited.frameSize demanded).1,
    Exchange.accept?_eq (account_of_run whole) limited demanded, outputs⟩

/-- After every read a machine is well-formed. The frames that it took during the read are no more than
the bytes there were; each had the size that was awaited, one byte at least, and in taking it no byte was
looked up that is not there, no range reached past its end, and no sum or product over the lengths, places and
piece indices in it left 64 bits. The reading of metadata that are complete is not among these checks. -/
theorem wellFormed_feed (infoHash : InfoHash) (peerId : PeerId) (verify : Bool) (reads : List Bytes)
    (bytes : Bytes) :
    let before := ((fresh infoHash peerId verify).feedAll reads).1
    let fed := frameHandler.feed before.exchange before.backlog bytes
    (before.feed bytes).1.WellFormed ∧ fed.frames ≤ before.backlog.size + bytes.length ∧
      ∃ history left, frameHandler.Run before.exchange history (before.feed bytes).1.exchange ∧
        history.length = fed.frames ∧ (before.feed bytes).2 = history.flatMap (·.outputs) ∧
        before.backlog.toList ++ bytes = history.flatMap (·.frame) ++ left ∧
        ∀ earlier delivery later, history = earlier ++ delivery :: later →
          ∃ taker, frameHandler.Run before.exchange earlier taker ∧
            taker.awaiting.frameSize = some delivery.frame.length ∧ 1 ≤ delivery.frame.length ∧
            taker.accept? delivery.frame = some (taker.accept delivery.frame) ∧
            delivery.outputs = (taker.accept delivery.frame).2 := by
  intro before fed
  obtain ⟨past, recorded⟩ := exists_history (settled_fresh infoHash peerId verify) reads
  have reached : frameHandler.Run (.fresh infoHash verify) past before.exchange := recorded.run
  obtain ⟨history, left, run, frames, outputs, parts, nothing, rest⟩ := exists_run_feed before bytes
  refine ⟨?_, ?_, history, left, run, frames, outputs, parts, ?_⟩
  · exact wellFormed_of_rest (reached.append run) nothing rest
  · have few := length_le_of_run run (limited_of_run reached trivial)
    have total := congrArg List.length parts
    simp only [List.length_append, Stream.Backlog.length_toList] at total
    rw [← frames]
    omega
  · intro earlier delivery later same
    subst same
    exact accept?_of_run reached run

end MetaExchange.Machine
