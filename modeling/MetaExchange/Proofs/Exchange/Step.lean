import MetaExchange.Exchange.Basic

/-!
What a frame can do to an exchange, said once. `Step` lists every way to take a frame of the size that
is awaited, and `Refuses` every reason to end the exchange instead; `step_accept` says that there are no
other ways. Whatever holds of an exchange in all its runs is proved by cases on `Step`.
-/

namespace MetaExchange.Exchange

variable {exchange : Exchange}

/-- The frame ends the exchange at once, with a fault. -/
inductive Refuses (exchange : Exchange) : Bytes → Fault → Prop where
  | handshake {protocolLength : Nat} {body : Bytes} {cause : Handshake.Error}
      (awaited : exchange.awaiting = .handshakeBody protocolLength)
      (unparsed : Handshake.parseBody protocolLength body = .error cause) :
      Refuses exchange body (.handshake cause)
  | length {bytes : Bytes} {length : Nat} (awaited : exchange.awaiting = .messageLength)
      (announced : Message.announcedLength? bytes = some length)
      (long : Message.maxLength < length) : Refuses exchange bytes (.messageTooLong length)
  | number {size : Nat} (awaited : exchange.awaiting = .messageBody size) :
      Refuses exchange [Message.Kind.extended.toByte] .extensionNumberMissing
  | announcement {size : Nat} {payload : Bytes} {fault : Fault}
      (awaited : exchange.awaiting = .messageBody size) (tableless : exchange.table = none)
      (refused : negotiate payload = .error fault) :
      Refuses exchange (Message.Kind.extended.toByte :: Extension.announcementId :: payload) fault
  | tooEarly {size : Nat} {number : UInt8} {payload : Bytes}
      (awaited : exchange.awaiting = .messageBody size) (tableless : exchange.table = none)
      (numbered : number ≠ Extension.announcementId) :
      Refuses exchange (Message.Kind.extended.toByte :: number :: payload) .notNegotiated
  | piece {size : Nat} {number : UInt8} {payload : Bytes} {table : Piece.Table} {fault : Fault}
      (awaited : exchange.awaiting = .messageBody size) (held : exchange.table = some table)
      (numbered : number ≠ Extension.announcementId) (refused : store table payload = .error fault) :
      Refuses exchange (Message.Kind.extended.toByte :: number :: payload) fault

/-- The body says nothing that matters: it is no extended message, or a further announcement. -/
inductive Ignores (exchange : Exchange) : Bytes → Prop where
  | empty : Ignores exchange []
  | otherKind {kind : UInt8} {content : Bytes} (other : kind ≠ Message.Kind.extended.toByte) :
      Ignores exchange (kind :: content)
  | announcedAgain {payload : Bytes} {table : Piece.Table} (held : exchange.table = some table) :
      Ignores exchange (Message.Kind.extended.toByte :: Extension.announcementId :: payload)

def closingEvent : Except Fault Metadata → Event
  | .error fault => .error fault
  | .ok metadata => .done metadata

theorem closingEvent_ne_pieceReceived (verdict : Except Fault Metadata)
    (index received pieceCount : Nat) :
    closingEvent verdict ≠ .pieceReceived index received pieceCount := by
  cases verdict <;> simp [closingEvent]

/-- The frame takes the exchange to another one, and asks for actions. -/
inductive Step (exchange : Exchange) : Bytes → Exchange → List Action → Prop where
  | protocolLength {byte : UInt8} (awaited : exchange.awaiting = .handshakeLength) :
      Step exchange [byte] { exchange with awaiting := .handshakeBody byte.toNat } []
  | greeted {protocolLength : Nat} {body : Bytes} {handshake : Handshake}
      (awaited : exchange.awaiting = .handshakeBody protocolLength)
      (parsed : Handshake.parseBody protocolLength body = .ok handshake) :
      Step exchange body { exchange with awaiting := .messageLength }
        [.report (.handshakeOk handshake.peerId), .send Extension.ourAnnouncement]
  | keptAlive {bytes : Bytes} (awaited : exchange.awaiting = .messageLength)
      (announced : Message.announcedLength? bytes = some 0) : Step exchange bytes exchange []
  | messageLength {bytes : Bytes} {length : Nat} (awaited : exchange.awaiting = .messageLength)
      (announced : Message.announcedLength? bytes = some length) (positive : 0 < length)
      (short : length ≤ Message.maxLength) :
      Step exchange bytes { exchange with awaiting := .messageBody length } []
  | ignored {size : Nat} {body : Bytes} (awaited : exchange.awaiting = .messageBody size)
      (ignores : exchange.Ignores body) :
      Step exchange body { exchange with awaiting := .messageLength } []
  | agreed {size : Nat} {payload : Bytes} {terms : Extension.Terms} {table : Piece.Table}
      (awaited : exchange.awaiting = .messageBody size) (tableless : exchange.table = none)
      (negotiated : negotiate payload = .ok (terms, table)) :
      Step exchange (Message.Kind.extended.toByte :: Extension.announcementId :: payload)
        { exchange with
          awaiting := .messageLength, table := some table, peerMetadataId := some terms.metadataId }
        (.report (.extendedOk terms.metadataSize table.pieceCount) ::
          requests terms.metadataId table.pieceCount)
  | stored {size : Nat} {number : UInt8} {payload : Bytes} {before after : Piece.Table} {index : Nat}
      (awaited : exchange.awaiting = .messageBody size) (held : exchange.table = some before)
      (numbered : number ≠ Extension.announcementId)
      (stores : store before payload = .ok (index, after)) (incomplete : after.isComplete = false) :
      Step exchange (Message.Kind.extended.toByte :: number :: payload)
        { exchange with awaiting := .messageLength, table := some after }
        [.report (.pieceReceived index after.received after.pieceCount)]
  | completed {size : Nat} {number : UInt8} {payload : Bytes} {before after : Piece.Table}
      {index : Nat} (awaited : exchange.awaiting = .messageBody size)
      (held : exchange.table = some before) (numbered : number ≠ Extension.announcementId)
      (stores : store before payload = .ok (index, after)) (complete : after.isComplete = true) :
      Step exchange (Message.Kind.extended.toByte :: number :: payload) exchange.finish
        [.report (.pieceReceived index after.received after.pieceCount),
          .report (closingEvent (exchange.verdict after))]
  | refused {frame : Bytes} {fault : Fault} (refuses : exchange.Refuses frame fault) :
      Step exchange frame exchange.finish [.report (.error fault)]

theorem step_acceptHandshake {protocolLength : Nat} (body : Bytes)
    (awaited : exchange.awaiting = .handshakeBody protocolLength) :
    exchange.Step body (exchange.acceptHandshake protocolLength body).1
      (exchange.acceptHandshake protocolLength body).2 := by
  unfold acceptHandshake
  split
  · next cause unparsed => exact .refused (.handshake awaited unparsed)
  · next handshake parsed => exact .greeted awaited parsed

theorem step_acceptLength {bytes : Bytes} (awaited : exchange.awaiting = .messageLength)
    (four : bytes.length = 4) :
    exchange.Step bytes (exchange.acceptLength bytes).1 (exchange.acceptLength bytes).2 := by
  have announced : Message.announcedLength? bytes = some (BigEndian.decode bytes) := by
    simp [Message.announcedLength?, BigEndian.decode32?, four]
  unfold acceptLength
  rw [announced]
  dsimp only
  split
  · next zero => exact .keptAlive awaited (by rw [announced, zero])
  · split
    · next long => exact .refused (.length awaited announced long)
    · next short => exact .messageLength awaited announced (by omega) (by omega)

theorem conclude_eq (exchange : Exchange) (table : Piece.Table) :
    exchange.conclude table =
      (exchange.finish, [.report (closingEvent (exchange.verdict table))]) := by
  unfold conclude
  cases exchange.verdict table <;> rfl

theorem step_acceptAnnouncement {size : Nat} (payload : Bytes)
    (awaited : exchange.awaiting = .messageBody size) :
    let next := { exchange with awaiting := .messageLength }.acceptAnnouncement payload
    exchange.Step (Message.Kind.extended.toByte :: Extension.announcementId :: payload)
      next.1 next.2 := by
  unfold acceptAnnouncement
  cases held : exchange.table with
  | some table =>
      have ignored : exchange.Ignores
          (Message.Kind.extended.toByte :: Extension.announcementId :: payload) :=
        .announcedAgain held
      simpa only [held] using Step.ignored awaited ignored
  | none =>
      cases negotiated : negotiate payload with
      | error fault => exact .refused (.announcement awaited held negotiated)
      | ok agreement => exact .agreed awaited held negotiated

theorem step_acceptMetadataMessage {size : Nat} {number : UInt8} (payload : Bytes)
    (awaited : exchange.awaiting = .messageBody size)
    (numbered : number ≠ Extension.announcementId) :
    let next := { exchange with awaiting := .messageLength }.acceptMetadataMessage payload
    exchange.Step (Message.Kind.extended.toByte :: number :: payload) next.1 next.2 := by
  unfold acceptMetadataMessage
  cases held : exchange.table with
  | none => exact .refused (.tooEarly awaited held numbered)
  | some table =>
      cases stores : store table payload with
      | error fault =>
          simp only [stores]
          exact .refused (.piece awaited held numbered stores)
      | ok stored =>
          obtain ⟨index, after⟩ := stored
          simp only [stores]
          cases complete : after.isComplete with
          | false => exact .stored awaited held numbered stores complete
          | true =>
              simp only [conclude_eq, ↓reduceIte]
              exact .completed awaited held numbered stores complete

theorem step_acceptBody {size : Nat} (body : Bytes)
    (awaited : exchange.awaiting = .messageBody size) :
    exchange.Step body (exchange.acceptBody body).1 (exchange.acceptBody body).2 := by
  unfold acceptBody
  dsimp only
  split
  · exact .ignored awaited .empty
  · next kind content =>
      by_cases extended : kind = Message.Kind.extended.toByte
      · rw [if_neg (not_not_intro extended), extended]
        split
        · exact .refused (.number awaited)
        · next number payload =>
            split
            · next announces =>
                rw [announces]
                exact step_acceptAnnouncement payload awaited
            · next numbered => exact step_acceptMetadataMessage payload awaited numbered
      · rw [if_pos extended]
        exact .ignored awaited (.otherKind extended)

/-- A frame of the size that is awaited is taken in one of these ways. -/
theorem step_accept {frame : Bytes}
    (demanded : exchange.awaiting.frameSize = some frame.length) :
    exchange.Step frame (exchange.accept frame).1 (exchange.accept frame).2 := by
  unfold accept
  cases awaited : exchange.awaiting with
  | handshakeLength =>
      rw [awaited] at demanded
      obtain ⟨byte, rfl⟩ := List.length_eq_one_iff.mp (Option.some.inj demanded).symm
      exact .protocolLength awaited
  | handshakeBody protocolLength => exact step_acceptHandshake frame awaited
  | messageLength =>
      rw [awaited] at demanded
      exact step_acceptLength awaited (Option.some.inj demanded).symm
  | messageBody size => exact step_acceptBody frame awaited
  | finished =>
      rw [awaited] at demanded
      cases demanded

theorem Refuses.accept_eq {frame : Bytes} {fault : Fault} (refuses : exchange.Refuses frame fault) :
    exchange.accept frame = (exchange.finish, [.report (.error fault)]) := by
  cases refuses with
  | handshake awaited unparsed => simp [accept, acceptHandshake, fail, awaited, unparsed]
  | length awaited announced long =>
      have positive := Nat.ne_of_gt (Nat.lt_of_le_of_lt (Nat.zero_le _) long)
      simp [accept, acceptLength, fail, awaited, announced, long, positive]
  | number awaited => simp [accept, acceptBody, fail, finish, awaited]
  | announcement awaited tableless refused =>
      simp [accept, acceptBody, acceptAnnouncement, fail, finish, awaited, tableless, refused]
  | tooEarly awaited tableless numbered =>
      simp [accept, acceptBody, acceptMetadataMessage, fail, finish, awaited, tableless, numbered]
  | piece awaited held numbered refused =>
      simp [accept, acceptBody, acceptMetadataMessage, fail, finish, awaited, held, numbered, refused]

theorem Ignores.acceptBody_eq {body : Bytes} (ignores : exchange.Ignores body) :
    exchange.acceptBody body = ({ exchange with awaiting := .messageLength }, []) := by
  cases ignores with
  | empty => rfl
  | otherKind other => simp [acceptBody, other]
  | announcedAgain held => simp [acceptBody, acceptAnnouncement, held]

/-- Nothing is said of a frame that does not come of it: a step tells what taking the frame does. -/
theorem Step.accept_eq {next : Exchange} {frame : Bytes} {actions : List Action}
    (step : exchange.Step frame next actions) : exchange.accept frame = (next, actions) := by
  cases step with
  | protocolLength awaited => simp only [accept, awaited]
  | greeted awaited parsed => simp only [accept, acceptHandshake, awaited, parsed]
  | keptAlive awaited announced => simp [accept, acceptLength, awaited, announced]
  | messageLength awaited announced positive short =>
      simp [accept, acceptLength, awaited, announced, Nat.ne_of_gt positive, Nat.not_lt.mpr short]
  | ignored awaited ignores => simp only [accept, awaited, ignores.acceptBody_eq]
  | agreed awaited tableless negotiated =>
      simp [accept, acceptBody, acceptAnnouncement, awaited, tableless, negotiated]
  | stored awaited held numbered stores incomplete =>
      simp [accept, acceptBody, acceptMetadataMessage, awaited, held, numbered, stores, incomplete]
  | completed awaited held numbered stores complete =>
      simp only [accept, acceptBody, acceptMetadataMessage, awaited, held, numbered, stores, complete,
        conclude_eq, ne_eq, not_true_eq_false, ↓reduceIte]
      rfl
  | refused refuses => exact refuses.accept_eq

theorem Step.awaiting_ne_finished {next : Exchange} {frame : Bytes} {actions : List Action}
    (step : exchange.Step frame next actions) : exchange.awaiting ≠ .finished := by
  intro finished
  cases step with
  | refused refuses => cases refuses <;> simp_all
  | _ => simp_all

theorem Step.isFinished_eq_false {next : Exchange} {frame : Bytes} {actions : List Action}
    (step : exchange.Step frame next actions) : exchange.isFinished = false := by
  simpa [isFinished] using step.awaiting_ne_finished

/-- A step that ends an exchange reports a fault, or the last piece and what came of the data. -/
theorem Step.end_cases {next : Exchange} {frame : Bytes} {actions : List Action}
    (step : exchange.Step frame next actions) (finished : next.isFinished = true) :
    (∃ fault, actions = [.report (.error fault)]) ∨
      ∃ number payload before after index,
        frame = Message.Kind.extended.toByte :: number :: payload ∧
        exchange.table = some before ∧ store before payload = .ok (index, after) ∧
        after.isComplete = true ∧
        actions = [.report (.pieceReceived index after.received after.pieceCount),
          .report (closingEvent (exchange.verdict after))] := by
  cases step with
  | refused refuses => exact .inl ⟨_, rfl⟩
  | completed awaited held numbered stores complete =>
      exact .inr ⟨_, _, _, _, _, rfl, held, stores, complete, rfl⟩
  | keptAlive awaited announced => simp [isFinished, awaited] at finished
  | _ => cases finished

theorem Step.identity_eq {next : Exchange} {frame : Bytes} {actions : List Action}
    (step : exchange.Step frame next actions) :
    next.infoHash = exchange.infoHash ∧ next.verify = exchange.verify := by
  cases step <;> exact ⟨rfl, rfl⟩

end MetaExchange.Exchange
