import MetaExchange.Message
import MetaExchange.Proofs.Bytes.BigEndian

namespace MetaExchange.Message

variable {body : Bytes}

@[simp] theorem length_frame (body : Bytes) : (frame body).length = body.length + 4 := by
  rw [frame, List.length_append, BigEndian.length_encode32, Nat.add_comm]

theorem take_frame (body : Bytes) : (frame body).take 4 = BigEndian.encode32 body.length :=
  List.take_left' (BigEndian.length_encode32 _)

theorem drop_frame (body : Bytes) : (frame body).drop 4 = body :=
  List.drop_left' (BigEndian.length_encode32 _)

theorem take_frame_append {count : Nat} (behind : Bytes) (few : count ≤ 4) :
    (frame body ++ behind).take count = (BigEndian.encode32 body.length).take count := by
  rw [frame, List.append_assoc, List.take_append_of_le_length]
  rwa [BigEndian.length_encode32]

theorem take_frame_append_of_le {count : Nat} (behind : Bytes) (enough : 4 ≤ count) :
    (frame body ++ behind).take count =
      BigEndian.encode32 body.length ++ (body ++ behind).take (count - 4) := by
  rw [frame, List.append_assoc, List.take_append, BigEndian.length_encode32, List.take_of_length_le]
  rwa [BigEndian.length_encode32]

theorem announcedLength?_take_frame (fits : body.length < UInt32.size) :
    announcedLength? ((frame body).take 4) = some body.length := by
  rw [take_frame]
  exact BigEndian.decode32?_encode32 fits

theorem drop_extended (extension : UInt8) (payload : Bytes) :
    (extended extension payload).drop 6 = payload := by
  rw [extended, ← List.drop_drop (i := 2) (j := 4), drop_frame]
  rfl

theorem getElem?_extended (extension : UInt8) (payload : Bytes) :
    (extended extension payload)[4]? = some 20 ∧ (extended extension payload)[5]? = some extension := by
  have behind (place : Nat) : (extended extension payload)[4 + place]? =
      (Kind.extended.toByte :: extension :: payload)[place]? := by
    rw [← List.getElem?_drop, extended, drop_frame]
  exact ⟨behind 0, behind 1⟩

end MetaExchange.Message
