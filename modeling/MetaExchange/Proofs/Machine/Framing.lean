import MetaExchange.Proofs.Machine.Boundary
import MetaExchange.Proofs.Machine.History
import MetaExchange.Proofs.Message

namespace MetaExchange

namespace Exchange

/-- The bodies that are taken of those that are sent: empty ones say nothing, and nothing is taken any more
once the exchange has ended. -/
def heard (exchange : Exchange) : List Bytes → List Bytes
  | [] => []
  | body :: rest =>
    if exchange.isFinished then []
    else if body = [] then exchange.heard rest
    else body :: (exchange.acceptBody body).1.heard rest

def acceptBodies (exchange : Exchange) : List Bytes → Exchange × List Action
  | [] => (exchange, [])
  | body :: rest =>
    let next := exchange.acceptBody body
    let further := next.1.acceptBodies rest
    (further.1, next.2 ++ further.2)

/-- The frames of a history that were taken for bodies of messages. -/
def bodiesOf (exchange : Exchange) : List (Stream.Delivery Action) → List Bytes
  | [] => []
  | delivery :: rest =>
    let further := (exchange.accept delivery.frame).1.bodiesOf rest
    match exchange.awaiting with
    | .messageBody _ => delivery.frame :: further
    | _ => further

variable {exchange last : Exchange} {body : Bytes} {bodies first second : List Bytes}
  {history earlier later : List (Stream.Delivery Action)}

theorem heard_of_finished (finished : exchange.isFinished = true) (bodies : List Bytes) :
    exchange.heard bodies = [] := by
  cases bodies with
  | nil => rfl
  | cons body rest => rw [heard, if_pos finished]

theorem acceptBodies_append (exchange : Exchange) (first second : List Bytes) :
    exchange.acceptBodies (first ++ second) =
      (((exchange.acceptBodies first).1.acceptBodies second).1,
        (exchange.acceptBodies first).2 ++ ((exchange.acceptBodies first).1.acceptBodies second).2) := by
  induction first generalizing exchange with
  | nil => rfl
  | cons body rest ih => simp only [List.cons_append, acceptBodies, ih, List.append_assoc]

theorem bodiesOf_append (run : frameHandler.Run exchange history last) :
    exchange.bodiesOf (history ++ later) = exchange.bodiesOf history ++ last.bodiesOf later := by
  induction run with
  | refl state => rfl
  | @deliver state last frame history demanded onward ih =>
      change (state.accept frame).1.bodiesOf (history ++ later) = _ at ih
      simp only [List.cons_append, bodiesOf, ih]
      cases state.awaiting <;> rfl

theorem demand_of_awaiting (awaited : exchange.awaiting = .messageLength) :
    frameHandler.demand exchange = some 4 := by
  change exchange.awaiting.frameSize = some 4
  rw [awaited]
  rfl

/-- A run takes these bodies, and does nothing but what comes of them. -/
structure Takes (exchange : Exchange) (bodies : List Bytes) (history : List (Stream.Delivery Action)) :
    Prop where
  run : frameHandler.Run exchange history (exchange.acceptBodies bodies).1
  outputs : history.flatMap (·.outputs) = (exchange.acceptBodies bodies).2
  taken : exchange.bodiesOf history = bodies

theorem Takes.append (takes : exchange.Takes first earlier)
    (further : (exchange.acceptBodies first).1.Takes second later) :
    exchange.Takes (first ++ second) (earlier ++ later) := by
  have joined := acceptBodies_append exchange first second
  refine ⟨?_, ?_, ?_⟩
  · rw [joined]
    exact takes.run.append further.run
  · rw [joined, List.flatMap_append, takes.outputs, further.outputs]
  · rw [bodiesOf_append takes.run, takes.taken, further.taken]

theorem takes_keepAlive (awaited : exchange.awaiting = .messageLength) :
    exchange.Takes [] [⟨Message.frame [], []⟩] := by
  have demanded : frameHandler.demand exchange = some (Message.frame []).length :=
    demand_of_awaiting awaited
  have run := (Stream.FrameHandler.Run.refl exchange).concat demanded (accept_keepAlive awaited)
  exact ⟨run, rfl, by simp [bodiesOf, awaited]⟩

theorem takes_body (awaited : exchange.awaiting = .messageLength) (nonempty : body ≠ [])
    (short : body.length ≤ Message.maxLength) :
    exchange.Takes [body]
      [⟨BigEndian.encode32 body.length, []⟩, ⟨body, (exchange.acceptBody body).2⟩] := by
  have accepted := accept_length awaited nonempty short
  have demanded : frameHandler.demand exchange = some (BigEndian.encode32 body.length).length := by
    rw [demand_of_awaiting awaited, BigEndian.length_encode32]
  have begun := (Stream.FrameHandler.Run.refl exchange).concat demanded accepted
  refine ⟨begun.concat rfl rfl, by simp [acceptBodies], ?_⟩
  simp only [bodiesOf, awaited, accepted]

/-- The frames of framed messages are the lengths and the bodies that are taken. What is left over came
too late. -/
theorem exists_takes_frames (awaited : exchange.awaiting = .messageLength)
    (short : ∀ body ∈ bodies, body.length ≤ Message.maxLength) :
    let after := (exchange.acceptBodies (exchange.heard bodies)).1
    ∃ history unheard, exchange.Takes (exchange.heard bodies) history ∧
      bodies.flatMap Message.frame = history.flatMap (·.frame) ++ unheard ∧
      (after.isFinished = true ∨ after.awaiting = .messageLength ∧ unheard = []) := by
  induction bodies generalizing exchange with
  | nil => exact ⟨[], [], ⟨.refl exchange, rfl, rfl⟩, rfl, .inr ⟨awaited, rfl⟩⟩
  | cons body rest ih =>
      have ongoing := ne_true_of_eq_false (isFinished_of_awaiting awaited)
      have shortRest := fun other member => short other (List.mem_cons_of_mem body member)
      rw [heard, if_neg ongoing]
      split
      · next empty =>
          subst empty
          obtain ⟨history, unheard, takes, parts, ending⟩ := ih awaited shortRest
          refine ⟨_, unheard, (takes_keepAlive awaited).append takes, ?_, ending⟩
          simp [parts]
      · next nonempty =>
          have first := takes_body awaited nonempty (short body List.mem_cons_self)
          rcases exchange.awaiting_acceptBody body with goesOn | finished
          · obtain ⟨history, unheard, takes, parts, ending⟩ := ih goesOn shortRest
            refine ⟨_, unheard, first.append takes, ?_, ending⟩
            simp [parts, Message.frame]
          · -- The messages behind this one are left over, all of them.
            have ended : (exchange.acceptBody body).1.isFinished = true := by simp [isFinished, finished]
            rw [heard_of_finished ended]
            refine ⟨_, rest.flatMap Message.frame, first, ?_, .inl ended⟩
            simp [Message.frame]

theorem accept_long (awaited : exchange.awaiting = .messageLength)
    (long : Message.maxLength < body.length) (fits : body.length < UInt32.size) :
    exchange.accept (BigEndian.encode32 body.length) =
      (exchange.finish, [.report (.error (.messageTooLong body.length))]) :=
  Refuses.accept_eq (.length awaited (BigEndian.decode32?_encode32 fits) long)

def refusalOf (long : Bytes) : Stream.Delivery Action :=
  ⟨BigEndian.encode32 long.length, [.report (.error (.messageTooLong long.length))]⟩

theorem run_long (run : frameHandler.Run exchange history last) (awaited : last.awaiting = .messageLength)
    (large : Message.maxLength < body.length) (fits : body.length < UInt32.size) :
    frameHandler.Run exchange (history ++ [refusalOf body]) last.finish ∧
      exchange.bodiesOf (history ++ [refusalOf body]) = exchange.bodiesOf history := by
  have demanded : frameHandler.demand last = some (BigEndian.encode32 body.length).length := by
    rw [demand_of_awaiting awaited, BigEndian.length_encode32]
  refine ⟨run.concat demanded (accept_long awaited large fits), ?_⟩
  rw [bodiesOf_append run]
  simp [bodiesOf, awaited]

end Exchange

namespace Machine

open Exchange (Action frameHandler)

variable {machine : Machine} {last : Exchange} {bodies reads : List Bytes} {left kept : Bytes}
  {history : List (Stream.Delivery Action)}

theorem settled_of_awaiting (awaited : machine.exchange.awaiting = .messageLength)
    (nothing : machine.backlog.toList = []) : machine.Settled := by
  rw [Settled, eq_idle nothing]
  exact feed_nil awaited

/-- What becomes of reads whose frames are known up to the end of the exchange, or up to the next length. -/
theorem feedAll_of_run (settled : machine.Settled)
    (run : frameHandler.Run machine.exchange history last)
    (parts : machine.backlog.toList ++ reads.flatten = history.flatMap (·.frame) ++ left)
    (stops : last.isFinished = true ∧ kept = [] ∨
      last.awaiting = .messageLength ∧ kept = left ∧ left.length < 4) :
    machine.feedAll reads =
        ({ machine with exchange := last, backlog := .ofList kept }, history.flatMap (·.outputs)) ∧
      machine.History reads history := by
  have drained : frameHandler.drain machine.exchange (machine.backlog.toList ++ reads.flatten) =
      ⟨last, kept, history.flatMap (·.outputs), history.length⟩ := by
    apply run.drain_eq parts
    rcases stops with ⟨finished, nothing⟩ | ⟨awaited, same, few⟩
    · rw [demand_eq_none_iff.mpr finished]
      exact nothing
    · rw [Exchange.demand_of_awaiting awaited]
      exact ⟨same, few⟩
  have fed : machine.feedAll reads =
      ({ machine with exchange := last, backlog := .ofList kept }, history.flatMap (·.outputs)) := by
    rw [feedAll_eq_feed settled, feed_eq, drained]
  refine ⟨fed, ?_, ?_, left, parts, ?_⟩
  · rw [fed]
    exact run
  · rw [fed]
  · rw [fed]
    intro ongoing
    rcases stops with ⟨finished, _⟩ | ⟨_, same, _⟩
    · cases ongoing.symm.trans finished
    · rw [Stream.Backlog.toList_ofList, same]

/-- A length above the limit ends the exchange when all of its four bytes are there. -/
theorem feedAll_long {long behind : Bytes} {count : Nat} (settled : machine.Settled)
    (run : frameHandler.Run machine.exchange history last) (awaited : last.awaiting = .messageLength)
    (large : Message.maxLength < long.length) (fits : long.length < UInt32.size)
    (parts : machine.backlog.toList ++ reads.flatten =
      history.flatMap (·.frame) ++ (Message.frame long ++ behind).take count) :
    machine.feedAll reads =
        (if count < 4 then
          ({ idle machine.peerId last with
              backlog := .ofList ((BigEndian.encode32 long.length).take count) },
            history.flatMap (·.outputs))
        else
          (idle machine.peerId last.finish,
            history.flatMap (·.outputs) ++ [.report (.error (.messageTooLong long.length))])) ∧
      ∃ recorded, machine.History reads recorded ∧
        machine.exchange.bodiesOf recorded = machine.exchange.bodiesOf history := by
  split
  · next few =>
      rw [Message.take_frame_append behind few.le] at parts
      have less : ((BigEndian.encode32 long.length).take count).length < 4 := by
        rw [List.length_take]
        omega
      obtain ⟨fed, recorded⟩ := feedAll_of_run settled run parts (.inr ⟨awaited, rfl, less⟩)
      exact ⟨fed, history, recorded, rfl⟩
  · next enough =>
      let refusal := Exchange.refusalOf long
      obtain ⟨longer, unchanged⟩ := Exchange.run_long run awaited large fits
      have whole : machine.backlog.toList ++ reads.flatten =
          (history ++ [refusal]).flatMap (·.frame) ++ (long ++ behind).take (count - 4) := by
        rw [parts, Message.take_frame_append_of_le behind (by omega), List.flatMap_append,
          List.append_assoc]
        simp [refusal, Exchange.refusalOf]
      obtain ⟨fed, recorded⟩ := feedAll_of_run settled longer whole (.inl ⟨rfl, rfl⟩)
      rw [List.flatMap_append] at fed
      exact ⟨fed, history ++ [refusal], recorded, unchanged⟩

/-- Messages that are framed one behind the other, and cut into reads in any way, do to a machine what the
bodies do that are not empty, in order, up to the first that ends the exchange: these bodies are taken, and
no others. In front of a body that is too long the exchange ends with a fault, as soon as the four bytes of
its length are there, and none of the bytes behind them is taken. -/
theorem feedAll_frames (awaited : machine.exchange.awaiting = .messageLength)
    (nothing : machine.backlog.toList = [])
    (short : ∀ body ∈ bodies, body.length ≤ Message.maxLength) :
    let taken := machine.exchange.heard bodies
    let after := machine.exchange.acceptBodies taken
    (∀ reads, reads.flatten = bodies.flatMap Message.frame →
      machine.feedAll reads = (idle machine.peerId after.1, after.2) ∧
      (after.1.isFinished = false → after.1.awaiting = .messageLength) ∧
      ∃ history, machine.History reads history ∧ machine.exchange.bodiesOf history = taken) ∧
    ∀ (long behind : Bytes) (count : Nat) (reads : List Bytes),
      Message.maxLength < long.length → long.length < 2 ^ 32 →
      reads.flatten = bodies.flatMap Message.frame ++ (Message.frame long ++ behind).take count →
      machine.feedAll reads =
        (if after.1.isFinished then (idle machine.peerId after.1, after.2)
        else if count < 4 then
          ({ idle machine.peerId after.1 with
              backlog := .ofList ((BigEndian.encode32 long.length).take count) }, after.2)
        else
          (idle machine.peerId after.1.finish,
            after.2 ++ [.report (.error (.messageTooLong long.length))])) ∧
      (Exchange.Fault.messageTooLong long.length).toFailure.isProtocol = true ∧
      ∃ history, machine.History reads history ∧ machine.exchange.bodiesOf history = taken := by
  intro taken after
  have settled := settled_of_awaiting awaited nothing
  obtain ⟨history, unheard, takes, parts, ending⟩ := Exchange.exists_takes_frames awaited short
  refine ⟨fun reads sent => ?_, fun long behind count reads large fits sent => ?_⟩
  · have whole : machine.backlog.toList ++ reads.flatten = history.flatMap (·.frame) ++ unheard := by
      rw [nothing, List.nil_append, sent, parts]
    have stops : after.1.isFinished = true ∧ ([] : Bytes) = [] ∨
        after.1.awaiting = .messageLength ∧ [] = unheard ∧ unheard.length < 4 := by
      rcases ending with finished | ⟨goesOn, rfl⟩
      · exact .inl ⟨finished, rfl⟩
      · exact .inr ⟨goesOn, rfl, by decide⟩
    obtain ⟨fed, recorded⟩ := feedAll_of_run settled takes.run whole stops
    rw [takes.outputs] at fed
    refine ⟨fed, fun ongoing => ?_, history, recorded, takes.taken⟩
    rcases ending with finished | ⟨goesOn, _⟩
    · cases ongoing.symm.trans finished
    · exact goesOn
  · have whole : machine.backlog.toList ++ reads.flatten =
        history.flatMap (·.frame) ++ (unheard ++ (Message.frame long ++ behind).take count) := by
      rw [nothing, List.nil_append, sent, parts, List.append_assoc]
    refine and_left_comm.mp ⟨rfl, ?_⟩
    rcases ending with finished | ⟨goesOn, rfl⟩
    · obtain ⟨fed, recorded⟩ := feedAll_of_run settled takes.run whole (.inl ⟨finished, rfl⟩)
      rw [takes.outputs] at fed
      rw [if_pos finished]
      exact ⟨fed, history, recorded, takes.taken⟩
    · rw [List.nil_append] at whole
      rw [if_neg (ne_true_of_eq_false (Exchange.isFinished_of_awaiting goesOn)), ← takes.outputs]
      obtain ⟨fed, recorded, listed, unchanged⟩ := feedAll_long settled takes.run goesOn large fits whole
      exact ⟨fed, recorded, listed, unchanged.trans takes.taken⟩

/-- A message without a body, one that nobody answers, and the length of one that is a byte too long. -/
theorem feedAll_frames_tooLong :
    let infoHash : InfoHash := ⟨List.replicate 20 0xab, rfl⟩
    let exchange : Exchange := { Exchange.fresh infoHash true with awaiting := .messageLength }
    let machine := idle PeerSide.peerId exchange
    let bodies : List Bytes := [[], [5, 0xff]]
    let tooLong := BigEndian.encode32 (Message.maxLength + 1)
    exchange.awaiting = .messageLength ∧ machine.backlog.toList = [] ∧
      (∀ body ∈ bodies, body.length ≤ Message.maxLength) ∧
      exchange.heard bodies = [[5, 0xff]] ∧
      machine.feedAll [bodies.flatMap Message.frame] = (machine, []) ∧
      machine.feedAll [bodies.flatMap Message.frame, tooLong] =
        (idle PeerSide.peerId exchange.finish,
          [.report (.error (.messageTooLong (Message.maxLength + 1)))]) := by
  intro infoHash exchange machine bodies tooLong
  have short : ∀ body ∈ bodies, body.length ≤ Message.maxLength := by decide
  have awaited : machine.exchange.awaiting = .messageLength := rfl
  obtain ⟨unchanged, ended⟩ := feedAll_frames awaited rfl short
  let long : Bytes := List.replicate (Message.maxLength + 1) 0
  have length : long.length = Message.maxLength + 1 := List.length_replicate
  have sent : [bodies.flatMap Message.frame, tooLong].flatten =
      bodies.flatMap Message.frame ++ (Message.frame long ++ []).take 4 := by
    rw [Message.take_frame_append_of_le [] (by decide), length]
    simp [tooLong]
  have refused := (ended long [] 4 _ (by omega) (by rw [length]; decide) sent).1
  rw [length] at refused
  exact ⟨rfl, rfl, short, rfl, (unchanged _ List.flatten_singleton).1, refused⟩

end Machine

end MetaExchange
