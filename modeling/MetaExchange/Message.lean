import MetaExchange.Bytes.BigEndian

namespace MetaExchange.Message

def lengthSize : Nat := 4

/-- The longest body that is read: a mebibyte, a piece, and room for a dictionary. -/
def maxLength : Nat := 1048576 + 16384 + 64

inductive Kind where
  | choke
  | unchoke
  | interested
  | notInterested
  | have
  | bitfield
  | request
  | piece
  | cancel
  | port
  | extended
  deriving DecidableEq

namespace Kind

def toByte : Kind → UInt8
  | .choke => 0
  | .unchoke => 1
  | .interested => 2
  | .notInterested => 3
  | .have => 4
  | .bitfield => 5
  | .request => 6
  | .piece => 7
  | .cancel => 8
  | .port => 9
  | .extended => 20

def all : List Kind :=
  [.choke, .unchoke, .interested, .notInterested, .have, .bitfield, .request, .piece, .cancel, .port,
    .extended]

def ofByte? (byte : UInt8) : Option Kind := all.find? fun kind => kind.toByte = byte

end Kind

/-- A body behind its length. The length is written modulo `2 ^ 32`. -/
def frame (body : Bytes) : Bytes := BigEndian.encode32 body.length ++ body

def extended (extension : UInt8) (payload : Bytes) : Bytes :=
  frame (Kind.extended.toByte :: extension :: payload)

def announcedLength? (bytes : Bytes) : Option Nat := BigEndian.decode32? bytes

end MetaExchange.Message
