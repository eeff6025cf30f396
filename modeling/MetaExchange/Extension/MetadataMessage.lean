import MetaExchange.Bencode.Decoder
import MetaExchange.Message

namespace MetaExchange.Extension

def requestType : Int64 := 0

def dataType : Int64 := 1

def rejectType : Int64 := 2

/-- Asks for a piece, under the number that the peer announced. Indices have 32 bits. -/
def pieceRequest (metadataId : UInt8) (index : UInt32) : Bytes :=
  Message.extended metadataId <| Bencode.Value.encode <|
    .dict [(Bytes.ofString "msg_type", .int requestType),
      (Bytes.ofString "piece", .int (Int64.ofNat index.toNat))]

structure MetadataMessage where
  type : Int64
  piece : Option Int64
  totalSize : Option Int64
  data : Bytes
  deriving DecidableEq

namespace MetadataMessage

inductive Error where
  | malformed (cause : Bencode.Error)
  | typeMissing
  deriving DecidableEq

def Error.toFailure : Error → Failure
  | .malformed cause => cause.toFailure.withContext "decoding metadata piece dictionary"
  | .typeMissing => .metadata "Metadata message without msg_type" none

/-- Reads a message. Only its type has to be there. -/
def decode (payload : Bytes) : Except Error MetadataMessage :=
  match Bencode.decodeDict payload with
  | .error cause => .error (.malformed cause)
  | .ok (dictionary, data) =>
    match dictionary.getInt? "msg_type" with
    | none => .error .typeMissing
    | some type =>
      .ok ⟨type, dictionary.getInt? "piece", dictionary.getInt? "total_size", data⟩

end MetadataMessage

end MetaExchange.Extension
