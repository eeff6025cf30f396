import MetaExchange.Extension.Announcement
import MetaExchange.Extension.MetadataMessage
import MetaExchange.Handshake
import MetaExchange.Metadata
import MetaExchange.Piece.Table

namespace MetaExchange.Exchange

inductive Fault where
  | handshake (cause : Handshake.Error)
  | truncatedLength
  | messageTooLong (length : Nat)
  | extensionNumberMissing
  | announcement (cause : Extension.Announcement.Error)
  | table (cause : Piece.Table.Error)
  /-- A message about a piece came before the peer announced the metadata. -/
  | notNegotiated
  | metadataMessage (cause : Extension.MetadataMessage.Error)
  | pieceRejected (index : Option Int64)
  | unknownMessageType (type : Int64)
  | pieceIndexMissing
  | negativePieceIndex (index : Int64)
  | totalSizeDiffers (totalSize : Int64) (metadataSize : Nat)
  | tableIncomplete
  | hashDiffers (expected actual : InfoHash)
  | metadata (cause : Metadata.Error)
  deriving DecidableEq

def Fault.toFailure : Fault → Failure
  | .handshake cause => cause.toFailure
  | .truncatedLength => .protocol "Truncated message length prefix" none
  | .messageTooLong length =>
    .protocol "Message too long" s!"{length} bytes (limit {Message.maxLength})"
  | .extensionNumberMissing => .protocol "Extended message without sub-id" none
  | .announcement cause => cause.toFailure
  | .table cause => cause.toFailure
  | .notNegotiated => .protocol "Metadata piece received before extension handshake" none
  | .metadataMessage cause => cause.toFailure
  | .pieceRejected none => .metadata "Peer rejected piece ?" none
  | .pieceRejected (some index) => .metadata s!"Peer rejected piece {index.toInt}" none
  | .unknownMessageType type => .metadata "Invalid msg_type" (toString type.toInt)
  | .pieceIndexMissing => .metadata "Metadata message without piece index" none
  | .negativePieceIndex index => .metadata "Piece index out of range" (toString index.toInt)
  | .totalSizeDiffers totalSize metadataSize =>
    .metadata "Piece total_size disagrees with metadata_size"
      s!"total_size {totalSize.toInt}, metadata_size {metadataSize}"
  | .tableIncomplete => .metadata "Metadata table incomplete" none
  | .hashDiffers expected actual =>
    .metadata "Metadata does not match info hash"
      s!"expected {Hex.encode expected.toBytes}, got {Hex.encode actual.toBytes}"
  | .metadata cause => cause.toFailure

end MetaExchange.Exchange
