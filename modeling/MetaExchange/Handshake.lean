import MetaExchange.Bytes.Hex
import MetaExchange.Failure
import MetaExchange.Text.Utf8

/-!
The greeting that each side sends first: one byte for the length of a protocol name, the name, eight
bytes of capability bits, the info hash it is about, and the sender's identity.

A greeting is accepted if it names the right protocol and its sender speaks the extension protocol.
The info hash it echoes is not looked at: what is fetched is held against the hash in the end.
-/

namespace MetaExchange

structure Handshake where
  protocol : Bytes
  reserved : FixedBytes 8
  infoHash : InfoHash
  peerId : PeerId
  deriving DecidableEq

namespace Handshake

def protocolName : Bytes := Bytes.ofString "BitTorrent protocol"

def tailSize : Nat := 48

/-- The capability bits we send: the extension protocol, and the distributed hash table. -/
def ourReserved : FixedBytes 8 := ⟨[0, 0, 0, 0, 0, 0x10, 0, 0x01], rfl⟩

def ours (infoHash : InfoHash) (peerId : PeerId) : Handshake :=
  ⟨protocolName, ourReserved, infoHash, peerId⟩

/-- Whether capability bits announce the extension protocol: bit 4 of the sixth byte. -/
def announcesExtensions (reserved : FixedBytes 8) : Bool :=
  reserved.toBytes.getD 5 0 &&& 0x10 != 0

def supportsExtensions (handshake : Handshake) : Bool := announcesExtensions handshake.reserved

def body (handshake : Handshake) : Bytes :=
  handshake.protocol ++ handshake.reserved.toBytes ++ handshake.infoHash.toBytes ++
    handshake.peerId.toBytes

/-- The bytes of a greeting. The length of the name is written modulo 256. -/
def serialize (handshake : Handshake) : Bytes :=
  UInt8.ofNat handshake.protocol.length :: handshake.body

inductive Error where
  | wrongSize (expected actual : Nat)
  | protocolMismatch (protocol : Bytes)
  | extensionsMissing (reserved : FixedBytes 8)
  deriving DecidableEq

def Error.toFailure : Error → Failure
  | .wrongSize expected actual =>
    .protocol "Handshake body has wrong size" s!"expected {expected}, got {actual}"
  | .protocolMismatch protocol =>
    .protocol "Protocol string mismatch, this is not BitTorrent protocol" (Utf8.lossy protocol)
  | .extensionsMissing reserved =>
    .protocol "Peer rejected: extension protocol not supported"
      s!"reserved bytes {Hex.encode reserved.toBytes}"

/-- Reads what follows the length of the name, which has to be all of it and nothing else. -/
def parseBody (protocolLength : Nat) (body : Bytes) : Except Error Handshake :=
  if fits : body.length = protocolLength + tailSize then
    let protocol := body.take protocolLength
    if protocol = protocolName then
      let reserved := FixedBytes.slice 8 protocolLength body (by simp only [tailSize] at fits; omega)
      let infoHash :=
        FixedBytes.slice 20 (protocolLength + 8) body (by simp only [tailSize] at fits; omega)
      let peerId :=
        FixedBytes.slice 20 (protocolLength + 28) body (by simp only [tailSize] at fits; omega)
      if announcesExtensions reserved then .ok ⟨protocol, reserved, infoHash, peerId⟩
      else .error (.extensionsMissing reserved)
    else .error (.protocolMismatch protocol)
  else .error (.wrongSize (protocolLength + tailSize) body.length)

end Handshake

end MetaExchange
