import MetaExchange.Proofs.Message
import MetaExchange.Proofs.PeerSide.Messages

namespace MetaExchange.Extension.MetadataMessage

open Bencode (Value)

variable {payload : Bytes} {message : MetadataMessage}

theorem decode_eq_ok_iff :
    decode payload = .ok message ↔
      ∃ dictionary, Bencode.decodeDict payload = .ok (dictionary, message.data) ∧
        dictionary.getInt? "msg_type" = some message.type ∧
        dictionary.getInt? "piece" = message.piece ∧
        dictionary.getInt? "total_size" = message.totalSize := by
  refine ⟨fun given => ?_, fun given => ?_⟩
  · cases decoded : Bencode.decodeDict payload with
    | error cause => simp only [decode, decoded, reduceCtorEq] at given
    | ok found =>
        cases typed : found.1.getInt? "msg_type" with
        | none => simp only [decode, decoded, typed, reduceCtorEq] at given
        | some type =>
            simp only [decode, decoded, typed, Except.ok.injEq] at given
            subst given
            exact ⟨found.1, rfl, typed, rfl, rfl⟩
  · obtain ⟨dictionary, decoded, typed, piece, totalSize⟩ := given
    simp only [decode, decoded, typed, piece, totalSize]

/-- The fields of a dictionary in order are read, and everything behind the dictionary is data. -/
theorem decode_encode {entries : List (Bytes × Value)} {type : Int64}
    (writable : (Value.dict entries).Writable (Bencode.maxDepth + 1))
    (typed : (Bytes.ofString "msg_type", Value.int type) ∈ entries) (tail : Bytes) :
    decode ((Value.dict entries).encode ++ tail) =
      .ok ⟨type, (Value.dict entries).getInt? "piece", (Value.dict entries).getInt? "total_size",
        tail⟩ :=
  decode_eq_ok_iff.mpr ⟨.dict entries, Bencode.decodeDict_encode writable tail,
    (Bencode.getInt?_dict_eq_some_iff writable.ascending).mpr typed, rfl, rfl⟩

theorem decode_drop_pieceMessage (type index : Int64) {totalSize : Nat} (fits : totalSize < 2 ^ 63)
    (data : Bytes) :
    decode ((PeerSide.pieceMessage type index totalSize data).drop 6) =
      .ok ⟨type, some index, some (Int64.ofNat totalSize), data⟩ := by
  rw [PeerSide.pieceMessage_eq type index fits, Message.drop_extended]
  exact decode_encode (PeerSide.writable_pieceEntries type index _) (List.mem_cons_self ..) data

/-- Whatever stands behind a dictionary is the data of its message, and whatever else is in the
dictionary, the message has the numbers that it holds. So a message about a piece is read as it was
meant. -/
theorem decode_exact :
    (∀ (entries : List (Bytes × Value)) (type : Int64) (tail : Bytes),
      (Value.dict entries).Writable (Bencode.maxDepth + 1) →
      (Bytes.ofString "msg_type", Value.int type) ∈ entries →
      ∃ message, decode ((Value.dict entries).encode ++ tail) = .ok message ∧
        message.type = type ∧
        (∀ number, message.piece = some number ↔
          (Bytes.ofString "piece", Value.int number) ∈ entries) ∧
        (∀ number, message.totalSize = some number ↔
          (Bytes.ofString "total_size", Value.int number) ∈ entries) ∧
        message.data = tail) ∧
    ∀ (type index : Int64) (totalSize : Nat) (data : Bytes), totalSize < 2 ^ 63 →
      ∃ message, decode ((PeerSide.pieceMessage type index totalSize data).drop 6) = .ok message ∧
        message.type = type ∧ message.piece = some index ∧
        message.totalSize.map Int64.toInt = some (totalSize : Int) ∧ message.data = data := by
  refine ⟨fun entries type tail writable typed => ?_, fun type index totalSize data fits => ?_⟩
  · refine ⟨_, decode_encode writable typed tail, rfl, fun number => ?_, fun number => ?_, rfl⟩
    · exact Bencode.getInt?_dict_eq_some_iff writable.ascending
    · exact Bencode.getInt?_dict_eq_some_iff writable.ascending
  · refine ⟨_, decode_drop_pieceMessage type index fits data, rfl, rfl, ?_, rfl⟩
    rw [Option.map_some, Int64.toInt_ofNat_of_lt fits]

/-- A dictionary within the dictionary, a string in place of a number, and data that looks like more of
the dictionary. -/
theorem decode_exact_misleadingData :
    let entries : List (Bytes × Value) :=
      [(Bytes.ofString "m", .dict [(Bytes.ofString "e", .list [])]),
        (Bytes.ofString "msg_type", .int 1), (Bytes.ofString "piece", .bytes (Bytes.ofString "i0e"))]
    let tail := Bytes.ofString "5:piecei0eed"
    (Value.dict entries).Writable (Bencode.maxDepth + 1) ∧
      (Bytes.ofString "msg_type", Value.int 1) ∈ entries ∧
      ∃ message, decode ((Value.dict entries).encode ++ tail) = .ok message ∧
        message.type = 1 ∧ message.piece = none ∧ message.data = tail := by
  intro entries tail
  have keys : entries.map Prod.fst =
      [Bytes.ofString "m", Bytes.ofString "msg_type", Bytes.ofString "piece"] := rfl
  have innerKeys : [(Bytes.ofString "e", Value.list [])].map Prod.fst = [Bytes.ofString "e"] := rfl
  have inner : (Value.dict [(Bytes.ofString "e", .list [])]).Writable Bencode.maxDepth := by
    apply Value.Writable.of_keys innerKeys (by decide) (by decide)
    intro entry member
    rw [List.mem_singleton.mp member]
    exact .list fun item member => absurd member List.not_mem_nil
  have writable : (Value.dict entries).Writable (Bencode.maxDepth + 1) := by
    apply Value.Writable.of_keys keys (by decide) (by decide)
    intro entry member
    simp only [entries, List.mem_cons, List.not_mem_nil, or_false] at member
    rcases member with rfl | rfl | rfl
    · exact inner
    · exact .int _
    · exact .bytes (by decide)
  have typed : (Bytes.ofString "msg_type", Value.int 1) ∈ entries :=
    List.mem_cons_of_mem _ (List.mem_cons_self ..)
  obtain ⟨message, decoded, type, piece, _, data⟩ := decode_exact.1 entries 1 tail writable typed
  have noNumber : ∀ number, (Bytes.ofString "piece", Value.int number) ∉ entries := by
    have named : Bytes.ofString "piece" ≠ Bytes.ofString "msg_type" := by decide
    simp [entries, named]
  have absent : message.piece = none :=
    Option.eq_none_iff_forall_ne_some.mpr fun number read => noNumber number ((piece number).mp read)
  exact ⟨writable, typed, message, decoded, type, absent, data⟩

end MetaExchange.Extension.MetadataMessage
