import MetaExchange.Proofs.Machine.Bounds
import MetaExchange.Proofs.Machine.Faults

/-!
Some checks repeat what was made sure of before: that a frame has the size its reader asks for, that the size
agreed on is one for a table, and that a complete table makes up the metadata. They agree with what they
repeat whatever a peer sends, so that no exchange is ever told to have failed at them
(`feedAll_checks_agree`).
-/

namespace MetaExchange

def Failure.message : Failure → String
  | .network message _ _ | .protocol message _ | .decode message _ | .metadata message _
  | .peer message _ _ | .config message _ | .validation message _ => message

@[simp] theorem Failure.message_withContext (failure : Failure) (context : String) :
    (failure.withContext context).message = failure.message := by
  cases failure <;> rfl

/-- A greeting of the size that its first byte announces is not refused for its size. -/
theorem Handshake.ne_wrongSize_of_parseBody {protocolLength : Nat} {body : Bytes} {cause : Error}
    (sized : body.length = protocolLength + tailSize)
    (refused : parseBody protocolLength body = .error cause) (expected actual : Nat) :
    cause ≠ .wrongSize expected actual := by
  rintro rfl
  rw [parseBody, dif_pos sized] at refused
  dsimp only at refused
  split at refused
  · split at refused
    · cases refused
    · cases refused
  · cases refused

namespace Exchange

variable {exchange next : Exchange} {frame payload : Bytes} {told actions : List Action} {fault : Fault}
  {table after : Piece.Table} {index : Nat}

/-- What is told when a check fails that repeats another. -/
def redundantMessages : List String :=
  ["Truncated message length prefix", "Handshake body has wrong size", "Invalid metadata size",
    "Metadata table incomplete"]

def Fault.isRedundant : Fault → Bool
  | .truncatedLength | .handshake (.wrongSize _ _) | .table (.invalidSize _) | .tableIncomplete => true
  | _ => false

theorem message_not_mem_of_malformed (cause : Bencode.Error) :
    cause.toFailure.message ∉ redundantMessages := by
  cases cause <;> simp [redundantMessages, Bencode.Error.toFailure, Failure.message]

theorem Fault.message_mem_iff (fault : Fault) :
    fault.toFailure.message ∈ redundantMessages ↔ fault.isRedundant = true := by
  cases fault with
  | handshake cause =>
      cases cause <;>
        simp [redundantMessages, isRedundant, toFailure, Handshake.Error.toFailure, Failure.message]
  | announcement cause =>
      cases cause with
      | malformed inner =>
          simp [isRedundant, toFailure, Extension.Announcement.Error.toFailure,
            message_not_mem_of_malformed]
      | _ =>
          simp [redundantMessages, isRedundant, toFailure, Extension.Announcement.Error.toFailure,
            Failure.message]
  | table cause =>
      cases cause <;>
        simp [redundantMessages, isRedundant, toFailure, Piece.Table.Error.toFailure, Failure.message]
  | metadataMessage cause =>
      cases cause with
      | malformed inner =>
          simp [isRedundant, toFailure, Extension.MetadataMessage.Error.toFailure,
            message_not_mem_of_malformed]
      | typeMissing =>
          simp [redundantMessages, isRedundant, toFailure, Extension.MetadataMessage.Error.toFailure,
            Failure.message]
  | pieceRejected index =>
      cases index with
      | none => simp [redundantMessages, isRedundant, toFailure, Failure.message]
      | some index =>
          -- The index is part of the text, but the first letter tells it from the others.
          have others : ∀ message ∈ redundantMessages, message.toList.head? ≠ some 'P' := by
            simp [redundantMessages]
          have first : (pieceRejected (some index)).toFailure.message.toList.head? = some 'P' := by
            simp [toFailure, Failure.message, toString]
          exact iff_of_false (fun member => others _ member first) (by simp [isRedundant])
  | metadata cause =>
      cases cause <;>
        simp [redundantMessages, isRedundant, toFailure, Metadata.Error.toFailure, Failure.message]
  | _ => simp [redundantMessages, isRedundant, toFailure, Failure.message]

theorem isRedundant_of_negotiate (refused : negotiate payload = .error fault) :
    fault.isRedundant = false := by
  rcases negotiate_error_cases refused with ⟨cause, _, rfl⟩ | ⟨found, cause, _, _, rfl⟩
  · rfl
  · rfl

theorem isRedundant_of_store (refused : store table payload = .error fault) :
    fault.isRedundant = false := by
  rcases store_error_cases refused with ⟨cause, _, rfl⟩ | ⟨message, _, broken⟩
  · rfl
  rcases broken with (rfl | rfl) | (rfl | ⟨number, rfl⟩) | ⟨totalSize, rfl⟩ | ⟨index, cause, untaken, rfl⟩
  · rfl
  · rfl
  · rfl
  · rfl
  · rfl
  · unfold Piece.Table.insert at untaken
    split at untaken
    · cases untaken
      rfl
    · dsimp only at untaken
      split at untaken
      · split at untaken
        · cases untaken
        · cases untaken
      · cases untaken
        rfl

theorem isRedundant_of_verdict {data : Bytes} (assembled : table.assemble = some data)
    (refused : exchange.verdict table = .error fault) : fault.isRedundant = false := by
  rw [verdict, assembled] at refused
  dsimp only at refused
  split at refused
  · cases refused
    rfl
  · obtain ⟨cause, _, rfl⟩ := Except.mapError_eq_error_iff.mp refused
    rfl

/-- When a message fills the last slot of the table, its pieces are the metadata in full. -/
theorem Account.exists_assembled (account : Account told exchange) (ongoing : exchange.isFinished = false)
    (held : exchange.table = some table) (stores : store table payload = .ok (index, after))
    (complete : after.isComplete = true) :
    ∃ data, after.assemble = some data ∧ data.length = after.metadataSize := by
  obtain ⟨stage, valid, fits, _⟩ := account.exists_stage ongoing
  obtain ⟨peerId, terms, receipts, _, rfl, _, holds, _⟩ := fits.eq_collecting held
  obtain ⟨_, _, _, sized⟩ := collect valid holds stores
  exact ⟨after.concatenation, sized.assemble complete,
    (sized.length_concatenation complete).trans sized.size.symm⟩

theorem isRedundant_of_refuses (sized : exchange.awaiting.frameSize = some frame.length)
    (refuses : exchange.Refuses frame fault) : fault.isRedundant = false := by
  cases refuses with
  | @handshake protocolLength body cause awaited unparsed =>
      rw [awaited] at sized
      have whole := Handshake.ne_wrongSize_of_parseBody (Option.some.inj sized).symm unparsed
      cases cause with
      | wrongSize expected actual => exact absurd rfl (whole expected actual)
      | _ => rfl
  | length awaited announced long => rfl
  | number awaited => rfl
  | announcement awaited tableless refused => exact isRedundant_of_negotiate refused
  | tooEarly awaited tableless numbered => rfl
  | piece awaited held numbered refused => exact isRedundant_of_store refused

/-- No step ends an exchange for a check that repeats another. -/
theorem Step.isRedundant_eq_false (step : exchange.Step frame next actions)
    (account : Account told exchange) (sized : exchange.awaiting.frameSize = some frame.length)
    (failed : .report (.error fault) ∈ actions) : fault.isRedundant = false := by
  have ongoing := step.isFinished_eq_false
  cases step with
  | refused refuses =>
      obtain rfl : fault = _ := by simpa using failed
      exact isRedundant_of_refuses sized refuses
  | @completed size number payload before after index awaited held numbered stores complete =>
      obtain ⟨data, assembled, _⟩ := account.exists_assembled ongoing held stores complete
      cases verdict : exchange.verdict after with
      | error cause =>
          obtain rfl : fault = cause := by simpa [verdict, closingEvent] using failed
          exact isRedundant_of_verdict assembled verdict
      | ok metadata => simp [verdict, closingEvent] at failed
  | greeted awaited parsed => simp at failed
  | agreed awaited tableless negotiated => simp at failed
  | stored awaited held numbered stores incomplete => simp at failed
  | _ => cases failed

/-- The frame has all that its reader asks for, and the pieces are whole when it brings the last of them. -/
structure Suits (exchange : Exchange) (frame : Bytes) : Prop where
  handshake : ∀ protocolLength, exchange.awaiting = .handshakeBody protocolLength →
    frame.length = protocolLength + 48
  length : exchange.awaiting = .messageLength →
    ∃ length, Message.announcedLength? frame = some length
  body : ∀ size, exchange.awaiting = .messageBody size → frame.length = size ∧ 1 ≤ size
  pieces : ∀ number payload before index after,
    frame = Message.Kind.extended.toByte :: number :: payload → exchange.table = some before →
    store before payload = .ok (index, after) → after.isComplete = true →
    ∃ data, after.assemble = some data ∧ data.length = after.metadataSize

theorem Account.suits (account : Account told exchange) (limited : exchange.awaiting.Limited)
    (sized : exchange.awaiting.frameSize = some frame.length) : exchange.Suits frame where
  handshake protocolLength awaited := by
    rw [awaited] at sized
    exact (Option.some.inj sized).symm
  length awaited := by
    rw [awaited] at sized
    have four : frame.length = 4 := (Option.some.inj sized).symm
    exact ⟨BigEndian.decode frame, by simp [Message.announcedLength?, BigEndian.decode32?, four]⟩
  body size awaited := by
    rw [awaited] at sized limited
    exact ⟨(Option.some.inj sized).symm, limited.1⟩
  pieces number payload before index after _ held stores complete :=
    account.exists_assembled (account.isFinished_eq_false held) held stores complete

end Exchange

namespace Machine

open Exchange (frameHandler redundantMessages)

/-- Whatever is fed to a machine, no check fails that repeats another: the limits of an announcement are
those of a table, and every frame suits the exchange that takes it. -/
theorem feedAll_checks_agree (infoHash : InfoHash) (peerId : PeerId) (verify : Bool)
    (reads : List Bytes) :
    let machine := fresh infoHash peerId verify
    (∀ fault, .report (.error fault) ∈ (machine.feedAll reads).2 →
      fault.toFailure.message ∉ redundantMessages) ∧
    (∀ (announcement : Extension.Announcement) terms, announcement.terms = .ok terms →
      ∃ table, Piece.Table.create? terms.metadataSize = .ok table) ∧
    ∃ history, machine.History reads history ∧
      ∀ earlier delivery later, history = earlier ++ delivery :: later →
        ∃ taker, frameHandler.Run machine.exchange earlier taker ∧
          delivery.outputs = (taker.accept delivery.frame).2 ∧ taker.Suits delivery.frame := by
  intro machine
  obtain ⟨history, recorded⟩ := exists_history (settled_fresh infoHash peerId verify) reads
  have run : frameHandler.Run (.fresh infoHash verify) history _ := recorded.run
  refine ⟨fun fault reported => ?_, fun announcement terms agreed => ?_, history, recorded, ?_⟩
  · rw [recorded.actions] at reported
    obtain ⟨delivery, member, failed⟩ := List.mem_flatMap.mp reported
    obtain ⟨earlier, later, rfl⟩ := List.append_of_mem member
    obtain ⟨taker, before, sized, outputs⟩ := run.exists_taker
    rw [outputs] at failed
    have passed := (Exchange.step_accept sized).isRedundant_eq_false (account_of_run before) sized failed
    rw [fault.message_mem_iff, passed]
    exact Bool.false_ne_true
  · exact ⟨_, Extension.Announcement.create?_of_terms agreed⟩
  · intro earlier delivery later parts
    subst parts
    obtain ⟨taker, before, sized, outputs⟩ := run.exists_taker
    exact ⟨taker, before, outputs,
      (account_of_run before).suits (limited_of_run before trivial) sized⟩

end Machine

end MetaExchange
