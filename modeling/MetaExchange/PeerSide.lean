import MetaExchange.Extension.MetadataMessage
import MetaExchange.Handshake
import MetaExchange.Piece.Geometry
import MetaExchange.Sha1

namespace MetaExchange.PeerSide

def peerId : PeerId := ⟨Bytes.ofString "-MO0001-remotepeer01", rfl⟩

def metadataId : UInt8 := 3

def handshake (infoHash : InfoHash) : Bytes := (Handshake.ours infoHash peerId).serialize

/-- A greeting of the peer under any name of a protocol, with any capability bits. -/
def rawHandshake (protocol : Bytes) (reserved : FixedBytes 8) (infoHash : InfoHash) : Bytes :=
  (Handshake.mk protocol reserved infoHash peerId).serialize

def handshakeWithoutExtensions (infoHash : InfoHash) : Bytes :=
  rawHandshake Handshake.protocolName ⟨[0, 0, 0, 0, 0, 0, 0, 0x01], rfl⟩ infoHash

def announcement (metadataId metadataSize : Int64) : Bytes :=
  Message.extended 0 <| Bencode.Value.encode <|
    .dict [(Bytes.ofString "m",
        .dict [(Bytes.ofString "ut_metadata", .int metadataId),
          (Bytes.ofString "ut_pex", .int 2)]),
      (Bytes.ofString "metadata_size", .int metadataSize),
      (Bytes.ofString "v", .bytes (Bytes.ofString "MockPeer 1.0"))]

/-- A number in a dictionary. It may have more than 64 bits. -/
def numberEntry (key : String) (value : Int) : Bytes :=
  Bencode.encodeBytes (Bytes.ofString key) ++ 'i'.toUInt8 :: Numeral.ofInt value ++ ['e'.toUInt8]

def pieceMessage (type index : Int64) (totalSize : Nat) (data : Bytes) : Bytes :=
  Message.extended 1 <|
    'd'.toUInt8 :: numberEntry "msg_type" type.toInt ++ numberEntry "piece" index.toInt ++
      numberEntry "total_size" totalSize ++ 'e'.toUInt8 :: data

def dataPiece (metadata : Bytes) (index : Nat) : Bytes :=
  pieceMessage Extension.dataType (Int64.ofNat index) metadata.length
    ((metadata.drop (index * Piece.fullSize)).take Piece.fullSize)

def bitfield : Bytes := Message.frame [Message.Kind.bitfield.toByte, 0xff, 0x80]

def keepAlive : Bytes := Message.frame []

def singleFile (length : Nat) (pieces : Bytes) : Bytes :=
  Bencode.Value.encode <|
    .dict [(Bytes.ofString "length", .int (Int64.ofNat length)),
      (Bytes.ofString "name", .bytes (Bytes.ofString "fixture.bin")),
      (Bytes.ofString "piece length", .int 16384),
      (Bytes.ofString "pieces", .bytes pieces)]

/-- How large metadata of one file is with so many bytes of hashes. -/
def singleFileSize (length hashes : Nat) : Nat :=
  (singleFile length []).length - (Numeral.ofNat 0).length + (Numeral.ofNat hashes).length + hashes

/-- Metadata of one file that is as large as the file; there is none for some sizes. -/
def metadataOfSize? (size : Nat) : Option Bytes :=
  let smallest := size - ((singleFile size []).length + 8)
  ((List.range' smallest (size + 1 - smallest)).find? fun hashes =>
    singleFileSize size hashes = size).map fun hashes => singleFile size (List.replicate hashes 0x5a)

end MetaExchange.PeerSide
