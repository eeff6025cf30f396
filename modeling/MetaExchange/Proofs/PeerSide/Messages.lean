import MetaExchange.PeerSide
import MetaExchange.Proofs.Bencode.ReadBack

namespace MetaExchange.PeerSide

open Bencode (Value)

def pieceEntries (type index totalSize : Int64) : List (Bytes × Value) :=
  [(Bytes.ofString "msg_type", .int type), (Bytes.ofString "piece", .int index),
    (Bytes.ofString "total_size", .int totalSize)]

theorem writable_pieceEntries (type index totalSize : Int64) :
    (Value.dict (pieceEntries type index totalSize)).Writable (Bencode.maxDepth + 1) := by
  have keys : (pieceEntries type index totalSize).map Prod.fst =
      [Bytes.ofString "msg_type", Bytes.ofString "piece", Bytes.ofString "total_size"] := rfl
  apply Value.Writable.of_keys keys (by decide) (by decide)
  intro entry member
  simp only [pieceEntries, List.mem_cons, List.not_mem_nil, or_false] at member
  rcases member with rfl | rfl | rfl <;> exact .int _

theorem pieceMessage_eq (type index : Int64) {totalSize : Nat} (fits : totalSize < 2 ^ 63)
    (data : Bytes) :
    pieceMessage type index totalSize data =
      Message.extended 1
        ((Value.dict (pieceEntries type index (Int64.ofNat totalSize))).encode ++ data) := by
  simp [pieceMessage, numberEntry, pieceEntries, Value.encode, Bencode.encodeEntries,
    Int64.toInt_ofNat_of_lt fits]

theorem length_encode_pieceEntries_le (type index totalSize : Int64) :
    (Value.dict (pieceEntries type index totalSize)).encode.length ≤ 154 :=
  Bencode.length_encode_le_room (writable_pieceEntries type index totalSize)

def announcementEntries (metadataId metadataSize : Int64) : List (Bytes × Value) :=
  [(Bytes.ofString "m",
      .dict [(Bytes.ofString "ut_metadata", .int metadataId), (Bytes.ofString "ut_pex", .int 2)]),
    (Bytes.ofString "metadata_size", .int metadataSize),
    (Bytes.ofString "v", .bytes (Bytes.ofString "MockPeer 1.0"))]

theorem announcement_eq (metadataId metadataSize : Int64) :
    announcement metadataId metadataSize =
      Message.extended 0 (Value.dict (announcementEntries metadataId metadataSize)).encode := rfl

theorem writable_announcementEntries (metadataId metadataSize : Int64) :
    (Value.dict (announcementEntries metadataId metadataSize)).Writable (Bencode.maxDepth + 1) := by
  have keys : (announcementEntries metadataId metadataSize).map Prod.fst =
      [Bytes.ofString "m", Bytes.ofString "metadata_size", Bytes.ofString "v"] := rfl
  have numberKeys : [(Bytes.ofString "ut_metadata", Value.int metadataId),
      (Bytes.ofString "ut_pex", Value.int 2)].map Prod.fst =
        [Bytes.ofString "ut_metadata", Bytes.ofString "ut_pex"] := rfl
  apply Value.Writable.of_keys keys (by decide) (by decide)
  intro entry member
  simp only [announcementEntries, List.mem_cons, List.not_mem_nil, or_false] at member
  rcases member with rfl | rfl | rfl
  · apply Value.Writable.of_keys numberKeys (by decide) (by decide)
    intro entry member
    simp only [List.mem_cons, List.not_mem_nil, or_false] at member
    rcases member with rfl | rfl <;> exact .int _
  · exact .int _
  · exact .bytes (by decide)

theorem length_encode_announcementEntries_le (metadataId metadataSize : Int64) :
    (Value.dict (announcementEntries metadataId metadataSize)).encode.length ≤ 240 :=
  Bencode.length_encode_le_room (writable_announcementEntries metadataId metadataSize)

end MetaExchange.PeerSide
