import MetaExchange.Proofs.Bytes.BigEndian
import MetaExchange.Proofs.Exchange.Stage
import MetaExchange.Proofs.Handshake
import MetaExchange.Proofs.Machine.Chunking

namespace MetaExchange

/-! ### Bodies of messages -/

namespace Exchange

variable {exchange : Exchange} {kind number : UInt8} {content payload : Bytes}

theorem with_awaiting (awaited : exchange.awaiting = .messageLength) :
    { exchange with awaiting := .messageLength } = exchange := by
  rw [← awaited]

theorem isFinished_of_awaiting (awaited : exchange.awaiting = .messageLength) :
    exchange.isFinished = false := by
  rw [isFinished, awaited]
  rfl

theorem acceptBody_of_ne (awaited : exchange.awaiting = .messageLength)
    (other : kind ≠ Message.Kind.extended.toByte) :
    exchange.acceptBody (kind :: content) = (exchange, []) := by
  simp only [acceptBody, with_awaiting awaited, ne_eq, other, not_false_eq_true, ↓reduceIte]

theorem acceptBody_announcement (awaited : exchange.awaiting = .messageLength) (payload : Bytes) :
    exchange.acceptBody (Message.Kind.extended.toByte :: Extension.announcementId :: payload) =
      exchange.acceptAnnouncement payload := by
  simp only [acceptBody, with_awaiting awaited, ne_eq, not_true_eq_false, ↓reduceIte]

theorem acceptBody_of_numbered (awaited : exchange.awaiting = .messageLength)
    (numbered : number ≠ Extension.announcementId) (payload : Bytes) :
    exchange.acceptBody (Message.Kind.extended.toByte :: number :: payload) =
      exchange.acceptMetadataMessage payload := by
  simp only [acceptBody, with_awaiting awaited, ne_eq, not_true_eq_false, numbered, ↓reduceIte]

theorem awaiting_acceptBody (exchange : Exchange) (body : Bytes) :
    (exchange.acceptBody body).1.awaiting = .messageLength ∨
      (exchange.acceptBody body).1.awaiting = .finished := by
  have step : ({ exchange with awaiting := .messageBody 0 } : Exchange).Step body
      (exchange.acceptBody body).1 (exchange.acceptBody body).2 :=
    step_acceptBody body rfl
  generalize (exchange.acceptBody body).1 = next at step
  generalize (exchange.acceptBody body).2 = actions at step
  cases step with
  | completed => exact .inr rfl
  | refused => exact .inr rfl
  | protocolLength awaited => cases awaited
  | greeted awaited => cases awaited
  | keptAlive awaited => cases awaited
  | messageLength awaited => cases awaited
  | _ => exact .inl rfl

theorem accept_keepAlive (awaited : exchange.awaiting = .messageLength) :
    exchange.accept (Message.frame []) = (exchange, []) :=
  Step.accept_eq (.keptAlive awaited rfl)

theorem accept_length {body : Bytes} (awaited : exchange.awaiting = .messageLength)
    (nonempty : body ≠ []) (short : body.length ≤ Message.maxLength) :
    exchange.accept (BigEndian.encode32 body.length) =
      ({ exchange with awaiting := .messageBody body.length }, []) := by
  have fits : body.length < UInt32.size := Nat.lt_of_le_of_lt short (by decide)
  exact Step.accept_eq (.messageLength awaited (BigEndian.decode32?_encode32 fits)
    (List.length_pos_iff.mpr nonempty) short)

theorem acceptHandshake_of_ok {protocolLength : Nat} {body : Bytes} {handshake : Handshake}
    (parsed : Handshake.parseBody protocolLength body = .ok handshake) :
    exchange.acceptHandshake protocolLength body =
      ({ exchange with awaiting := .messageLength }, greeting handshake.peerId) := by
  rw [acceptHandshake, parsed]
  rfl

theorem acceptHandshake_of_error {protocolLength : Nat} {body : Bytes} {cause : Handshake.Error}
    (unparsed : Handshake.parseBody protocolLength body = .error cause) :
    exchange.acceptHandshake protocolLength body = exchange.fail (.handshake cause) := by
  rw [acceptHandshake, unparsed]

theorem awaiting_acceptHandshake (exchange : Exchange) (protocolLength : Nat) (body : Bytes) :
    (exchange.acceptHandshake protocolLength body).1.awaiting = .messageLength ∨
      (exchange.acceptHandshake protocolLength body).1.awaiting = .finished := by
  cases parsed : Handshake.parseBody protocolLength body with
  | error cause =>
      rw [acceptHandshake_of_error parsed]
      exact .inr rfl
  | ok handshake =>
      rw [acceptHandshake_of_ok parsed]
      exact .inl rfl

theorem Awaiting.frameSize_ne_zero {awaiting : Awaiting}
    (behind : awaiting = .messageLength ∨ awaiting = .finished) : awaiting.frameSize ≠ some 0 := by
  rcases behind with rfl | rfl <;> decide

end Exchange

/-! ### Machines between two messages -/

namespace Machine

open Exchange (Action frameHandler)

def idle (peerId : PeerId) (exchange : Exchange) : Machine := ⟨peerId, exchange, .empty⟩

theorem eq_idle {machine : Machine} (nothing : machine.backlog.toList = []) :
    machine = idle machine.peerId machine.exchange := by
  have none : machine.backlog = .empty := Stream.Backlog.ext nothing
  rw [idle, ← none]

variable {peerId : PeerId} {exchange next : Exchange} {body : Bytes}

/-- A frame that comes whole is taken, and nothing is kept back. -/
theorem feed_exact {frame : Bytes} {actions : List Action}
    (demanded : exchange.awaiting.frameSize = some frame.length)
    (accepted : exchange.accept frame = (next, actions))
    (wanted : next.awaiting.frameSize ≠ some 0) :
    (idle peerId exchange).feed frame = (idle peerId next, actions) := by
  have whole := Stream.FrameHandler.drain_frame frameHandler demanded
  rw [show frameHandler.accept exchange frame = (next, actions) from accepted] at whole
  have drained : frameHandler.drain (idle peerId exchange).exchange
      ((idle peerId exchange).backlog.toList ++ frame) = ⟨next, [], actions, 1⟩ := whole wanted
  rw [feed_eq, drained]
  rfl

theorem feed_frame (awaited : exchange.awaiting = .messageLength) (nonempty : body ≠ [])
    (short : body.length ≤ Message.maxLength) :
    (idle peerId exchange).feed (Message.frame body) =
      (idle peerId (exchange.acceptBody body).1, (exchange.acceptBody body).2) := by
  let begun : Exchange := { exchange with awaiting := .messageBody body.length }
  have fedLength : (idle peerId exchange).feed (BigEndian.encode32 body.length) =
      (idle peerId begun, []) := by
    apply feed_exact _ (Exchange.accept_length awaited nonempty short)
    · simpa [begun, Exchange.Awaiting.frameSize] using nonempty
    · rw [awaited, BigEndian.length_encode32]
      rfl
  have fedBody : (idle peerId begun).feed body =
      (idle peerId (exchange.acceptBody body).1, (exchange.acceptBody body).2) := by
    apply feed_exact rfl rfl
    exact Exchange.Awaiting.frameSize_ne_zero (exchange.awaiting_acceptBody body)
  rw [Message.frame, feed_append, fedLength, fedBody, List.nil_append]

theorem feed_extended {number : UInt8} {payload : Bytes} (awaited : exchange.awaiting = .messageLength)
    (short : 2 + payload.length ≤ Message.maxLength) :
    (idle peerId exchange).feed (Message.extended number payload) =
      (idle peerId (exchange.acceptBody (Message.Kind.extended.toByte :: number :: payload)).1,
        (exchange.acceptBody (Message.Kind.extended.toByte :: number :: payload)).2) :=
  feed_frame awaited (List.cons_ne_nil _ _) (by simp only [List.length_cons]; omega)

theorem feed_nil (awaited : exchange.awaiting = .messageLength) :
    (idle peerId exchange).feed [] = (idle peerId exchange, []) := by
  have wanted : frameHandler.demand exchange ≠ some 0 := by
    change exchange.awaiting.frameSize ≠ some 0
    rw [awaited]
    decide
  have drained : frameHandler.drain (idle peerId exchange).exchange
      ((idle peerId exchange).backlog.toList ++ []) = ⟨exchange, [], [], 0⟩ :=
    Stream.FrameHandler.drain_nil frameHandler wanted
  rw [feed_eq, drained]
  rfl

theorem feed_keepAlive (awaited : exchange.awaiting = .messageLength) :
    (idle peerId exchange).feed (Message.frame []) = (idle peerId exchange, []) := by
  apply feed_exact _ (Exchange.accept_keepAlive awaited)
  · rw [awaited]
    decide
  · rw [awaited]
    rfl

/-- The first byte of a greeting only says how many others belong to it, and these are taken together. -/
theorem feed_handshake {length : UInt8} (awaited : exchange.awaiting = .handshakeLength)
    (whole : body.length = length.toNat + Handshake.tailSize) :
    (idle peerId exchange).feed (length :: body) =
      (idle peerId (exchange.acceptHandshake length.toNat body).1,
        (exchange.acceptHandshake length.toNat body).2) := by
  let begun : Exchange := { exchange with awaiting := .handshakeBody length.toNat }
  have fedLength : (idle peerId exchange).feed [length] = (idle peerId begun, []) := by
    have accepted : exchange.accept [length] = (begun, []) := by
      unfold Exchange.accept
      rw [awaited]
    apply feed_exact _ accepted
    · simp [begun, Exchange.Awaiting.frameSize, Handshake.tailSize]
    · rw [awaited]
      rfl
  have accepted : begun.accept body = exchange.acceptHandshake length.toNat body := by
    change begun.acceptHandshake length.toNat body = _
    unfold Exchange.acceptHandshake
    cases Handshake.parseBody length.toNat body <;> rfl
  have fedBody : (idle peerId begun).feed body =
      (idle peerId (exchange.acceptHandshake length.toNat body).1,
        (exchange.acceptHandshake length.toNat body).2) := by
    apply feed_exact _ accepted
    · exact Exchange.Awaiting.frameSize_ne_zero (exchange.awaiting_acceptHandshake _ _)
    · rw [whole]
      rfl
  rw [← List.singleton_append, feed_append, fedLength, fedBody, List.nil_append]

/-- A greeting that is accepted is answered, and messages are awaited behind it. -/
theorem feed_greeting {handshake : Handshake} (awaited : exchange.awaiting = .handshakeLength)
    (named : handshake.protocol = Handshake.protocolName)
    (announced : handshake.supportsExtensions = true) :
    (idle peerId exchange).feed handshake.serialize =
      (idle peerId { exchange with awaiting := .messageLength },
        Exchange.greeting handshake.peerId) := by
  have nameSize : (UInt8.ofNat handshake.protocol.length).toNat = handshake.protocol.length := by
    rw [named]
    rfl
  have whole : handshake.body.length =
      (UInt8.ofNat handshake.protocol.length).toNat + Handshake.tailSize := by
    rw [nameSize, handshake.length_body]
  rw [Handshake.serialize, feed_handshake awaited whole, nameSize,
    Exchange.acceptHandshake_of_ok (Handshake.parseBody_body named announced)]

end Machine

end MetaExchange
