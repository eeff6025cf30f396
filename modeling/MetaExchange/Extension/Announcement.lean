import MetaExchange.Bencode.Decoder
import MetaExchange.Message
import MetaExchange.Piece.Geometry

namespace MetaExchange.Extension

def announcementId : UInt8 := 0

/-- The number we ask metadata messages to carry. -/
def ourMetadataId : UInt8 := 1

def ourAnnouncement : Bytes :=
  Message.extended announcementId <| Bencode.Value.encode <|
    .dict [(Bytes.ofString "m",
      .dict [(Bytes.ofString "ut_metadata", .int (Int64.ofNat ourMetadataId.toNat))])]

structure Announcement where
  /-- The number that metadata messages to the peer are to carry. -/
  metadataId : Option Int64
  metadataSize : Option Int64
  client : Option String
  deriving DecidableEq

structure Terms where
  metadataId : UInt8
  metadataSize : Nat
  deriving DecidableEq

namespace Announcement

inductive Error where
  | malformed (cause : Bencode.Error)
  | metadataIdMissing
  | metadataSizeMissing
  | invalid (metadataSize metadataId : Int64)
  deriving DecidableEq

def Error.toFailure : Error → Failure
  | .malformed cause => cause.toFailure.withContext "decoding extension handshake"
  | .metadataIdMissing => .metadata "Peer does not advertise ut_metadata" none
  | .metadataSizeMissing => .metadata "Peer did not declare metadata_size" none
  | .invalid metadataSize metadataId =>
    .metadata "Extended handshake has invalid values"
      s!"metadata_size: {metadataSize.toInt}, ut_metadata: {metadataId.toInt}"

/-- The announcement made by a dictionary. What has another type than expected counts as missing. -/
def ofValue (dictionary : Bencode.Value) : Announcement where
  metadataId := (dictionary.get? (Bytes.ofString "m")).bind (·.getInt? "ut_metadata")
  metadataSize := dictionary.getInt? "metadata_size"
  client := ((dictionary.get? (Bytes.ofString "v")).bind (·.asBytes?)).map Utf8.lossy

/-- Reads an announcement. Bytes behind its dictionary do not matter. -/
def decode (payload : Bytes) : Except Error Announcement :=
  match Bencode.decodeDict payload with
  | .error cause => .error (.malformed cause)
  | .ok (dictionary, _) => .ok (ofValue dictionary)

/-- The terms that an announcement allows: a number that fits a byte and is not the announcement's
own, and a size within the limit. -/
def terms (announcement : Announcement) : Except Error Terms :=
  match announcement.metadataId with
  | none => .error .metadataIdMissing
  | some id =>
    match announcement.metadataSize with
    | none => .error .metadataSizeMissing
    | some size =>
      let validId := 1 ≤ id.toInt ∧ id.toInt < 256
      let validSize := 1 ≤ size.toInt ∧ size.toInt ≤ (Piece.maxMetadataSize : Int)
      if validId ∧ validSize then .ok ⟨UInt8.ofNat id.toInt.toNat, size.toInt.toNat⟩
      else .error (.invalid size id)

end Announcement

end MetaExchange.Extension
