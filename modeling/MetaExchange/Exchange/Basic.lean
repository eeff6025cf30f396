import MetaExchange.Exchange.Action
import MetaExchange.Sha1

/-!
The rules of the exchange, frame by frame. What is awaited says how large the next frame is:

    handshake length (1 byte), handshake body, then message length (4 bytes) and message body in turn

The first fault ends the exchange, and so does the metadata; nothing is awaited after that.
-/

namespace MetaExchange

namespace Exchange

inductive Awaiting where
  | handshakeLength
  | handshakeBody (protocolLength : Nat)
  | messageLength
  | messageBody (length : Nat)
  | finished
  deriving DecidableEq

def Awaiting.frameSize : Awaiting → Option Nat
  | .handshakeLength => some 1
  | .handshakeBody protocolLength => some (protocolLength + Handshake.tailSize)
  | .messageLength => some Message.lengthSize
  | .messageBody length => some length
  | .finished => none

end Exchange

structure Exchange where
  infoHash : InfoHash
  verify : Bool
  awaiting : Exchange.Awaiting
  /-- The number that messages to the peer about pieces carry, once it is known. -/
  peerMetadataId : Option UInt8
  /-- The pieces, from the agreement on the terms to the end of the exchange. -/
  table : Option Piece.Table
  deriving DecidableEq

namespace Exchange

def fresh (infoHash : InfoHash) (verify : Bool) : Exchange where
  infoHash
  verify
  awaiting := .handshakeLength
  peerMetadataId := none
  table := none

def finish (exchange : Exchange) : Exchange :=
  { exchange with awaiting := .finished, table := none }

def fail (exchange : Exchange) (fault : Fault) : Exchange × List Action :=
  (exchange.finish, [.report (.error fault)])

def acceptHandshake (exchange : Exchange) (protocolLength : Nat) (body : Bytes) :
    Exchange × List Action :=
  match Handshake.parseBody protocolLength body with
  | .error cause => exchange.fail (.handshake cause)
  | .ok handshake =>
    ({ exchange with awaiting := .messageLength },
      [.report (.handshakeOk handshake.peerId), .send Extension.ourAnnouncement])

/-- Takes the length of a message. A message of no bytes only keeps the connection alive. -/
def acceptLength (exchange : Exchange) (bytes : Bytes) : Exchange × List Action :=
  match Message.announcedLength? bytes with
  | none => exchange.fail .truncatedLength
  | some length =>
    if length = 0 then (exchange, [])
    else if Message.maxLength < length then exchange.fail (.messageTooLong length)
    else ({ exchange with awaiting := .messageBody length }, [])

def negotiate (payload : Bytes) : Except Fault (Extension.Terms × Piece.Table) := do
  let announcement ← (Extension.Announcement.decode payload).mapError .announcement
  let terms ← announcement.terms.mapError .announcement
  let table ← (Piece.Table.create? terms.metadataSize).mapError .table
  return (terms, table)

def requests (metadataId : UInt8) (pieceCount : Nat) : List Action :=
  (List.range pieceCount).map fun index =>
    .send (Extension.pieceRequest metadataId (UInt32.ofNat index))

/-- Takes the peer's announcement, and asks for all pieces. A second announcement changes nothing. -/
def acceptAnnouncement (exchange : Exchange) (payload : Bytes) : Exchange × List Action :=
  match exchange.table with
  | some _ => (exchange, [])
  | none =>
    match negotiate payload with
    | .error fault => exchange.fail fault
    | .ok (terms, table) =>
      ({ exchange with table := some table, peerMetadataId := some terms.metadataId },
        .report (.extendedOk terms.metadataSize table.pieceCount) ::
          requests terms.metadataId table.pieceCount)

def checkType (message : Extension.MetadataMessage) : Except Fault Unit :=
  if message.type = Extension.dataType then .ok ()
  else if message.type = Extension.rejectType then .error (.pieceRejected message.piece)
  else .error (.unknownMessageType message.type)

def pieceIndex (message : Extension.MetadataMessage) : Except Fault Nat :=
  match message.piece with
  | none => .error .pieceIndexMissing
  | some index =>
    if index.toInt < 0 then .error (.negativePieceIndex index) else .ok index.toInt.toNat

/-- Where a message tells the size of the metadata, it must be that of the table. -/
def checkTotalSize (table : Piece.Table) (message : Extension.MetadataMessage) :
    Except Fault Unit :=
  match message.totalSize with
  | none => .ok ()
  | some totalSize =>
    if totalSize.toInt = table.metadataSize then .ok ()
    else .error (.totalSizeDiffers totalSize table.metadataSize)

def store (table : Piece.Table) (payload : Bytes) : Except Fault (Nat × Piece.Table) := do
  let message ← (Extension.MetadataMessage.decode payload).mapError .metadataMessage
  checkType message
  let index ← pieceIndex message
  checkTotalSize table message
  let (_, table) ← (table.insert index message.data).mapError .table
  return (index, table)

/-- What a complete table says: metadata, if its pieces have the info hash, or if that is not asked
for, and if they can be read. The line about them in the log is left to the end of the program. -/
def verdict (exchange : Exchange) (table : Piece.Table) : Except Fault Metadata :=
  match table.assemble with
  | none => .error .tableIncomplete
  | some data =>
    if exchange.verify ∧ Sha1.digest data ≠ exchange.infoHash then
      .error (.hashDiffers exchange.infoHash (Sha1.digest data))
    else (Metadata.ofBytes exchange.infoHash data).mapError .metadata

def conclude (exchange : Exchange) (table : Piece.Table) : Exchange × List Action :=
  match exchange.verdict table with
  | .error fault => exchange.fail fault
  | .ok metadata => (exchange.finish, [.report (.done metadata)])

def acceptMetadataMessage (exchange : Exchange) (payload : Bytes) : Exchange × List Action :=
  match exchange.table with
  | none => exchange.fail .notNegotiated
  | some table =>
    match store table payload with
    | .error fault => exchange.fail fault
    | .ok (index, table) =>
      let event := Action.report (.pieceReceived index table.received table.pieceCount)
      if table.isComplete then
        let (exchange, actions) := exchange.conclude table
        (exchange, event :: actions)
      else ({ exchange with table := some table }, [event])

/-- Takes the body of a message. Only extended messages matter: one number is that of announcements,
and all others are taken for ours. -/
def acceptBody (exchange : Exchange) (body : Bytes) : Exchange × List Action :=
  let exchange := { exchange with awaiting := .messageLength }
  match body with
  | [] => (exchange, [])
  | kind :: content =>
    if kind ≠ Message.Kind.extended.toByte then (exchange, [])
    else
      match content with
      | [] => exchange.fail .extensionNumberMissing
      | number :: payload =>
        if number = Extension.announcementId then exchange.acceptAnnouncement payload
        else exchange.acceptMetadataMessage payload

def accept (exchange : Exchange) (frame : Bytes) : Exchange × List Action :=
  match exchange.awaiting with
  | .handshakeLength =>
    match frame with
    | [] => (exchange, [])
    | length :: _ => ({ exchange with awaiting := .handshakeBody length.toNat }, [])
  | .handshakeBody protocolLength => exchange.acceptHandshake protocolLength frame
  | .messageLength => exchange.acceptLength frame
  | .messageBody _ => exchange.acceptBody frame
  | .finished => (exchange, [])

def isFinished (exchange : Exchange) : Bool := exchange.awaiting = .finished

end Exchange

end MetaExchange
