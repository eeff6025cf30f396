import MetaExchange.Extension.MetadataMessage
import MetaExchange.Proofs.Bencode.ReadBack
import MetaExchange.Proofs.Message

namespace MetaExchange.Extension

open Bencode (Value)

def requestEntries (index : UInt32) : List (Bytes × Value) :=
  [(Bytes.ofString "msg_type", .int requestType),
    (Bytes.ofString "piece", .int (Int64.ofNat index.toNat))]

theorem pieceRequest_eq (metadataId : UInt8) (index : UInt32) :
    pieceRequest metadataId index =
      Message.extended metadataId (Value.dict (requestEntries index)).encode := rfl

theorem writable_requestEntries (index : UInt32) :
    (Value.dict (requestEntries index)).Writable (Bencode.maxDepth + 1) := by
  have keys : (requestEntries index).map Prod.fst =
      [Bytes.ofString "msg_type", Bytes.ofString "piece"] := rfl
  apply Value.Writable.of_keys keys (by decide) (by decide)
  intro entry member
  simp only [requestEntries, List.mem_cons, List.not_mem_nil, or_false] at member
  rcases member with rfl | rfl <;> exact .int _

theorem length_encode_requestEntries_le (index : UInt32) :
    (Value.dict (requestEntries index)).encode.length ≤ 101 :=
  Bencode.length_encode_le_room (writable_requestEntries index)

theorem decodeDict_drop_pieceRequest (metadataId : UInt8) (index : UInt32) :
    Bencode.decodeDict ((pieceRequest metadataId index).drop 6) =
      .ok (.dict (requestEntries index), []) := by
  have read := Bencode.decodeDict_encode (writable_requestEntries index) []
  rw [List.append_nil] at read
  rw [pieceRequest_eq, Message.drop_extended, read]

theorem announcedLength?_pieceRequest (metadataId : UInt8) (index : UInt32) :
    Message.announcedLength? ((pieceRequest metadataId index).take 4) =
      some ((pieceRequest metadataId index).length - 4) := by
  have small := length_encode_requestEntries_le index
  rw [pieceRequest_eq, Message.extended, Message.announcedLength?_take_frame, Message.length_frame,
    Nat.add_sub_cancel]
  exact Nat.lt_of_le_of_lt (Nat.add_le_add_right small 2) (by decide)

theorem toInt_ofNat_index (index : UInt32) : (Int64.ofNat index.toNat).toInt = index.toNat :=
  Int64.toInt_ofNat_of_lt (Nat.lt_trans index.toNat_lt (by decide))

theorem pieceRequest_injective :
    Function.Injective fun (request : UInt8 × UInt32) => pieceRequest request.1 request.2 := by
  rintro ⟨metadataId, index⟩ ⟨otherId, otherIndex⟩ same
  dsimp only at same
  have number : metadataId = otherId := by
    have sixth := congrArg (fun request : Bytes => request[5]?) same
    simpa only [pieceRequest_eq, (Message.getElem?_extended _ _).2, Option.some.injEq] using sixth
  have entries : requestEntries index = requestEntries otherIndex := by
    have read := congrArg (fun request => Bencode.decodeDict (request.drop 6)) same
    simpa only [decodeDict_drop_pieceRequest, Except.ok.injEq, Prod.mk.injEq, and_true,
      Value.dict.injEq] using read
  have piece : Int64.ofNat index.toNat = Int64.ofNat otherIndex.toNat := by
    simpa [requestEntries] using entries
  have value := congrArg Int64.toInt piece
  rw [toInt_ofNat_index, toInt_ofNat_index] at value
  rw [number, UInt32.toNat_inj.mp (Int.ofNat_inj.mp value)]

/-- Every request announces its own length, carries the number that the peer asked for, and behind that
number there is one dictionary and nothing else, which says that a piece is requested, and which. So no two
requests are written alike. -/
theorem pieceRequest_readBack :
    (∀ (metadataId : UInt8) (index : UInt32),
      let request := pieceRequest metadataId index
      6 ≤ request.length ∧
        Message.announcedLength? (request.take 4) = some (request.length - 4) ∧
        request[4]? = some 20 ∧ request[5]? = some metadataId ∧
        ∃ piece : Int64, piece.toInt = index.toNat ∧
          Bencode.decodeDict (request.drop 6) =
            .ok (.dict [(Bytes.ofString "msg_type", .int 0), (Bytes.ofString "piece", .int piece)], [])) ∧
    Function.Injective fun (request : UInt8 × UInt32) => pieceRequest request.1 request.2 := by
  refine ⟨fun metadataId index => ?_, pieceRequest_injective⟩
  intro request
  obtain ⟨kind, number⟩ :=
    Message.getElem?_extended metadataId (Value.dict (requestEntries index)).encode
  have long : 6 ≤ request.length := by
    simp only [request, pieceRequest_eq, Message.extended, Message.length_frame, List.length_cons]
    omega
  exact ⟨long, announcedLength?_pieceRequest metadataId index, kind, number, _,
    toInt_ofNat_index index, decodeDict_drop_pieceRequest metadataId index⟩

end MetaExchange.Extension
