import MetaExchange.Proofs.Bytes.Checked
import MetaExchange.Proofs.Exchange.Stage

/-!
Taking a frame with every look at a byte, every cut and every sum over its lengths, places and piece indices
checked. The functions here give nothing where a byte is looked up that is not there, a range reaches past
the end, or a number leaves 64 bits; apart from that they do what the exchange does, up to the reading of
complete metadata, which they take over. `accept?_eq` says that none of it ever happens with a frame of the
size that is awaited, so that the checks could be left out.
-/

namespace MetaExchange

def FixedBytes.field? (size start : Nat) (bytes : Bytes) : Option (FixedBytes size) := do
  let stop ← word? (start + size)
  let field ← bytes.range? start stop
  FixedBytes.ofBytes? size field

theorem FixedBytes.field?_eq {size start : Nat} {bytes : Bytes} (fits : start + size ≤ bytes.length)
    (small : bytes.length < UInt64.size) :
    FixedBytes.field? size start bytes = some (FixedBytes.slice size start bytes fits) := by
  have length : ((bytes.drop start).take size).length = size :=
    (FixedBytes.slice size start bytes fits).length_toBytes
  simp [FixedBytes.field?, word?_eq (show start + size < UInt64.size by omega),
    Bytes.range?_eq (Nat.le_add_right start size) fits, FixedBytes.ofBytes?, length, FixedBytes.slice]

namespace Handshake

def parseBody? (protocolLength : Nat) (body : Bytes) : Option (Except Error Handshake) := do
  let size ← word? (protocolLength + tailSize)
  if body.length = size then
    let protocol ← body.range? 0 protocolLength
    if protocol = protocolName then
      let reserved ← FixedBytes.field? 8 protocolLength body
      let infoHash ← FixedBytes.field? 20 (← word? (protocolLength + 8)) body
      let peerId ← FixedBytes.field? 20 (← word? (protocolLength + 28)) body
      if announcesExtensions reserved then return .ok ⟨protocol, reserved, infoHash, peerId⟩
      else return .error (.extensionsMissing reserved)
    else return .error (.protocolMismatch protocol)
  else return .error (.wrongSize size body.length)

theorem parseBody?_eq {protocolLength : Nat} (body : Bytes) (small : protocolLength ≤ 255) :
    parseBody? protocolLength body = some (parseBody protocolLength body) := by
  have word : ∀ offset ≤ tailSize, word? (protocolLength + offset) = some (protocolLength + offset) := by
    intro offset within
    have bound : offset ≤ 48 := within
    exact word?_eq (by rw [UInt64.size]; omega)
  unfold parseBody? parseBody
  rw [word tailSize (Nat.le_refl _), Option.bind_eq_bind, Option.bind_some]
  by_cases sized : body.length = protocolLength + tailSize
  · have total : body.length = protocolLength + 48 := sized
    have short : body.length < UInt64.size := by rw [UInt64.size]; omega
    have field : ∀ size start, (fits : start + size ≤ body.length) →
        FixedBytes.field? size start body = some (FixedBytes.slice size start body fits) :=
      fun _ _ fits => FixedBytes.field?_eq fits short
    rw [if_pos sized, dif_pos sized, Bytes.range?_eq (Nat.zero_le _) (by omega), word 8 (by decide),
      word 28 (by decide), field 8 _ (by omega)]
    simp only [Option.bind_eq_bind, Option.bind_some, List.drop_zero, Nat.sub_zero]
    rw [field 20 _ (by omega), field 20 _ (by omega)]
    split
    · dsimp only [Option.bind_some]
      split <;> rfl
    · rfl
  · rw [if_neg sized, dif_neg sized]
    rfl

end Handshake

namespace Piece.Table

def insert? (table : Table) (index : Nat) (data : Bytes) : Option (Except Error (Status × Table)) :=
  if table.pieceCount ≤ index then some (.error (.indexOutOfRange index table.pieceCount))
  else do
    let expected ← sizeAt? table.metadataSize index
    if data.length = expected then
      let held ← table.slots[index]?
      let slots := table.slots.set index (some data)
      match held with
      | none =>
        let received ← word? (table.received + 1)
        return .ok (.filled, { table with slots, received })
      | some _ => return .ok (.replaced, { table with slots })
    else return .error (.wrongLength index expected data.length)

/-- The place of a piece is worked out only for an index of the table, whatever index was sent. -/
theorem insert?_eq {table : Table} (few : table.pieceCount ≤ 64)
    (counted : table.received ≤ table.pieceCount) (index : Nat) (data : Bytes) :
    table.insert? index data = some (table.insert index data) := by
  unfold insert? insert
  by_cases outside : table.pieceCount ≤ index
  · rw [if_pos outside, List.getElem?_eq_none outside]
  · have inside : index < table.slots.length := Nat.lt_of_not_le outside
    have placed : index * fullSize < UInt64.size := by
      have bound : index < 64 := Nat.lt_of_lt_of_le inside few
      rw [fullSize, UInt64.size]
      omega
    have fits : table.received + 1 < UInt64.size := by rw [UInt64.size]; omega
    rw [if_neg outside, sizeAt?, if_pos placed, List.getElem?_eq_getElem inside]
    simp only [Option.bind_eq_bind, Option.bind_some, word?_eq fits]
    split
    · cases table.slots[index] <;> rfl
    · rfl

example : sizeAt? 1 (2 ^ 50) = none ∧
    insert? ⟨1, [none], 0⟩ (2 ^ 50) [] = some (.error (.indexOutOfRange (2 ^ 50) 1)) := ⟨rfl, rfl⟩

end Piece.Table

namespace Exchange

/-- The index and the data of the piece that a message sends, if it may be stored. -/
def examine (table : Piece.Table) (payload : Bytes) : Except Fault (Nat × Bytes) := do
  let message ← (Extension.MetadataMessage.decode payload).mapError .metadataMessage
  checkType message
  let index ← pieceIndex message
  checkTotalSize table message
  return (index, message.data)

theorem store_eq (table : Piece.Table) (payload : Bytes) :
    store table payload =
      examine table payload >>= fun (index, data) =>
        ((table.insert index data).mapError .table).map fun (_, after) => (index, after) := by
  unfold store examine
  simp only [bind_assoc, bind_map_left, bind_pure_comp]
  rfl

def store? (table : Piece.Table) (payload : Bytes) : Option (Except Fault (Nat × Piece.Table)) :=
  match examine table payload with
  | .error fault => some (.error fault)
  | .ok (index, data) => do
    let inserted ← table.insert? index data
    return (inserted.mapError .table).map fun (_, after) => (index, after)

theorem store?_eq {table : Piece.Table} (few : table.pieceCount ≤ 64)
    (counted : table.received ≤ table.pieceCount) (payload : Bytes) :
    store? table payload = some (store table payload) := by
  rw [store?, store_eq]
  cases examine table payload with
  | error fault => rfl
  | ok examined =>
      simp only [Piece.Table.insert?_eq few counted]
      rfl

def settle (exchange : Exchange) : Except Fault (Nat × Piece.Table) → Exchange × List Action
  | .error fault => exchange.fail fault
  | .ok (index, table) =>
    let event := Action.report (.pieceReceived index table.received table.pieceCount)
    if table.isComplete then
      let (exchange, actions) := exchange.conclude table
      (exchange, event :: actions)
    else ({ exchange with table := some table }, [event])

def acceptMetadataMessage? (exchange : Exchange) (payload : Bytes) :
    Option (Exchange × List Action) :=
  match exchange.table with
  | none => some (exchange.fail .notNegotiated)
  | some table => (store? table payload).map exchange.settle

def acceptBody? (exchange : Exchange) (body : Bytes) : Option (Exchange × List Action) := do
  let exchange := { exchange with awaiting := .messageLength }
  let kind ← body[0]?
  if kind ≠ Message.Kind.extended.toByte then return (exchange, [])
  else if body.length < 2 then return exchange.fail .extensionNumberMissing
  else
    let number ← body[1]?
    let payload ← body.range? 2 body.length
    if number = Extension.announcementId then return exchange.acceptAnnouncement payload
    else exchange.acceptMetadataMessage? payload

/-- Takes a frame as `accept` does, with every look at a byte of the frame, every cut, and every sum over
lengths, places and piece indices checked. What a complete table says is taken over as it is. -/
def accept? (exchange : Exchange) (frame : Bytes) : Option (Exchange × List Action) :=
  match exchange.awaiting with
  | .handshakeLength => do
    let length ← frame[0]?
    return ({ exchange with awaiting := .handshakeBody length.toNat }, [])
  | .handshakeBody protocolLength => do
    let parsed ← Handshake.parseBody? protocolLength frame
    match parsed with
    | .error cause => return exchange.fail (.handshake cause)
    | .ok handshake =>
      return ({ exchange with awaiting := .messageLength },
        [.report (.handshakeOk handshake.peerId), .send Extension.ourAnnouncement])
  | .messageLength => some (exchange.acceptLength frame)
  | .messageBody _ => exchange.acceptBody? frame
  | .finished => some (exchange, [])

/-- A size that is awaited is one that a peer may announce: by one byte, or within the limit. -/
def Awaiting.Limited : Awaiting → Prop
  | .handshakeBody protocolLength => protocolLength ≤ 255
  | .messageBody length => 1 ≤ length ∧ length ≤ Message.maxLength
  | _ => True

theorem Awaiting.Limited.frameSize {awaiting : Awaiting} (limited : awaiting.Limited) {size : Nat}
    (demanded : awaiting.frameSize = some size) : 1 ≤ size ∧ size ≤ Message.maxLength := by
  cases awaiting with
  | handshakeLength =>
      cases demanded
      decide
  | handshakeBody protocolLength =>
      cases demanded
      simp only [Limited] at limited
      simp only [Handshake.tailSize, Message.maxLength]
      omega
  | messageLength =>
      cases demanded
      decide
  | messageBody length =>
      cases demanded
      exact limited
  | finished => cases demanded

theorem limited_step {exchange next : Exchange} {frame : Bytes} {actions : List Action}
    (limited : exchange.awaiting.Limited) (step : exchange.Step frame next actions) :
    next.awaiting.Limited := by
  cases step with
  | @protocolLength byte awaited => exact Nat.le_of_lt_succ byte.toNat_lt
  | keptAlive awaited announced => exact limited
  | messageLength awaited announced positive short => exact ⟨positive, short⟩
  | _ => trivial

theorem Account.small {told : List Action} {exchange : Exchange} (account : Account told exchange)
    {table : Piece.Table} (held : exchange.table = some table) :
    table.pieceCount ≤ 64 ∧ table.received ≤ table.pieceCount := by
  cases account with
  | ongoing stage valid fits =>
      obtain ⟨peerId, terms, receipts, content, rfl, _, holds, _⟩ := fits.eq_collecting held
      refine ⟨holds.pieceCount ▸ valid.2.2.1.2, ?_⟩
      rw [holds.received]
      exact List.countP_le_length
  | ended stage verdict valid behindPiece numbered finished tableless =>
      rw [tableless] at held
      cases held

theorem Account.tableless {told : List Action} {exchange : Exchange} (account : Account told exchange)
    (finished : exchange.isFinished = true) : exchange.table = none := by
  cases account with
  | ongoing stage valid fits =>
      rw [fits.unfinished] at finished
      cases finished
  | ended stage verdict valid behindPiece numbered finished tableless => exact tableless

theorem acceptMetadataMessage?_eq {exchange : Exchange}
    (small : ∀ table, exchange.table = some table →
      table.pieceCount ≤ 64 ∧ table.received ≤ table.pieceCount) (payload : Bytes) :
    exchange.acceptMetadataMessage? payload = some (exchange.acceptMetadataMessage payload) := by
  unfold acceptMetadataMessage? acceptMetadataMessage
  cases held : exchange.table with
  | none => rfl
  | some table =>
      obtain ⟨few, counted⟩ := small table held
      simp only [store?_eq few counted, Option.map_some]
      cases store table payload <;> rfl

theorem acceptBody?_eq {exchange : Exchange}
    (small : ∀ table, exchange.table = some table →
      table.pieceCount ≤ 64 ∧ table.received ≤ table.pieceCount) {body : Bytes}
    (nonempty : body ≠ []) : exchange.acceptBody? body = some (exchange.acceptBody body) := by
  unfold acceptBody? acceptBody
  cases body with
  | nil => exact absurd rfl nonempty
  | cons kind content =>
      simp only [List.getElem?_cons_zero, Option.bind_eq_bind, Option.bind_some]
      split
      · rfl
      · cases content with
        | nil => rfl
        | cons number payload =>
            have long : ¬ (kind :: number :: payload).length < 2 := by simp
            have rest : Bytes.range? 2 (kind :: number :: payload).length (kind :: number :: payload) =
                some payload := by
              rw [Bytes.range?_eq (by simp) (Nat.le_refl _)]
              simp
            simp only [if_neg long, rest, List.getElem?_cons_succ, List.getElem?_cons_zero,
              Option.bind_some]
            split
            · rfl
            · apply acceptMetadataMessage?_eq
              exact small

/-- No check fails on a frame of the size that is awaited. -/
theorem accept?_eq {told : List Action} {exchange : Exchange} (account : Account told exchange)
    (limited : exchange.awaiting.Limited) {frame : Bytes}
    (demanded : exchange.awaiting.frameSize = some frame.length) :
    exchange.accept? frame = some (exchange.accept frame) := by
  unfold accept? accept
  cases awaited : exchange.awaiting with
  | handshakeLength =>
      rw [awaited] at demanded
      obtain ⟨byte, rfl⟩ := List.length_eq_one_iff.mp (Option.some.inj demanded).symm
      rfl
  | handshakeBody protocolLength =>
      rw [awaited] at limited
      simp only [Handshake.parseBody?_eq frame limited, acceptHandshake]
      cases Handshake.parseBody protocolLength frame <;> rfl
  | messageLength => rfl
  | messageBody size =>
      rw [awaited] at limited demanded
      apply acceptBody?_eq fun table held => account.small held
      intro empty
      rw [empty] at demanded
      cases demanded
      exact absurd limited.1 (by decide)
  | finished => rfl

end Exchange

end MetaExchange
