import Mathlib.Data.List.GetD
import MetaExchange.Handshake

namespace MetaExchange

def Failure.isProtocol : Failure → Bool
  | .protocol .. => true
  | _ => false

theorem FixedBytes.slice_eq {size start : Nat} {bytes front back : Bytes} (part : FixedBytes size)
    (parts : bytes = front ++ (part.toBytes ++ back)) (placed : start = front.length)
    {fits : start + size ≤ bytes.length} : FixedBytes.slice size start bytes fits = part := by
  subst parts placed
  ext1
  simp only [slice, List.drop_left]
  exact List.take_left' part.length_toBytes

namespace Handshake

theorem length_body (handshake : Handshake) :
    handshake.body.length = handshake.protocol.length + tailSize := by
  simp [body, FixedBytes.length_toBytes, tailSize]

theorem drop_body (handshake : Handshake) :
    handshake.body.drop (handshake.protocol.length + 28) = handshake.peerId.toBytes := by
  apply List.drop_left'
  simp [FixedBytes.length_toBytes]

theorem parseBody_body {handshake : Handshake} (named : handshake.protocol = protocolName)
    (announced : handshake.supportsExtensions = true) :
    parseBody handshake.protocol.length handshake.body = .ok handshake := by
  obtain ⟨protocol, reserved, infoHash, peerId⟩ := handshake
  let bytes := body ⟨protocol, reserved, infoHash, peerId⟩
  have atReserved : bytes = protocol ++ (reserved.toBytes ++ (infoHash.toBytes ++ peerId.toBytes)) := by
    simp [bytes, body]
  have atHash : bytes = protocol ++ reserved.toBytes ++ (infoHash.toBytes ++ peerId.toBytes) := by
    simp [bytes, body]
  have atPeer : bytes = protocol ++ reserved.toBytes ++ infoHash.toBytes ++ (peerId.toBytes ++ []) := by
    simp [bytes, body]
  have taken : bytes.take protocol.length = protocol := by simp [bytes, body]
  unfold parseBody
  rw [dif_pos (length_body _)]
  dsimp only
  rw [if_pos (taken.trans named), FixedBytes.slice_eq reserved atReserved rfl,
    FixedBytes.slice_eq infoHash atHash (by simp [reserved.length_toBytes]),
    FixedBytes.slice_eq peerId atPeer (by simp [reserved.length_toBytes, infoHash.length_toBytes]), taken]
  exact if_pos announced

theorem eq_append_slices {protocolLength : Nat} {bytes : Bytes}
    (fits : bytes.length = protocolLength + tailSize) :
    bytes = bytes.take protocolLength ++ (bytes.drop protocolLength).take 8 ++
      (bytes.drop (protocolLength + 8)).take 20 ++ (bytes.drop (protocolLength + 28)).take 20 := by
  have front : bytes.take (protocolLength + 8 + 20) = bytes.take (protocolLength + 28) := rfl
  have whole : bytes.take (protocolLength + 28 + 20) = bytes :=
    List.take_of_length_le (by simp [fits, tailSize])
  rw [← List.take_add, ← List.take_add, front, ← List.take_add, whole]

/-- A greeting is read exactly if it is the body of one that names the protocol and announces the extension
protocol. -/
theorem parseBody_eq_ok_iff {protocolLength : Nat} {bytes : Bytes} {handshake : Handshake} :
    parseBody protocolLength bytes = .ok handshake ↔
      bytes = handshake.body ∧ protocolLength = handshake.protocol.length ∧
        handshake.protocol = protocolName ∧ handshake.supportsExtensions = true := by
  refine ⟨fun parsed => ?_, fun given => ?_⟩
  · unfold parseBody at parsed
    split at parsed
    · next fits =>
        dsimp only at parsed
        split at parsed
        · next named =>
            split at parsed
            · next announced =>
                cases parsed
                have within : protocolLength ≤ bytes.length := by omega
                exact ⟨eq_append_slices fits, (List.length_take_of_le within).symm, named, announced⟩
            · cases parsed
        · cases parsed
    · cases parsed
  · obtain ⟨rfl, rfl, named, announced⟩ := given
    exact parseBody_body named announced

theorem announcesExtensions_iff {reserved : FixedBytes 8} {bytes front back : Bytes}
    (parts : bytes = front ++ (reserved.toBytes ++ back)) :
    announcesExtensions reserved = true ↔ bytes.getD (front.length + 5) 0 &&& 0x10 ≠ 0 := by
  have within : 5 < reserved.toBytes.length := by
    rw [reserved.length_toBytes]
    decide
  have sixth : bytes.getD (front.length + 5) 0 = reserved.toBytes.getD 5 0 := by
    rw [parts, List.getD_append_right _ _ _ _ (Nat.le_add_right _ _), Nat.add_sub_cancel_left,
      List.getD_append _ _ _ _ within]
  rw [sixth, announcesExtensions, bne_iff_ne]

/-- What is asked of a greeting: it names the protocol, nothing of it is missing, and the bit of the
extension protocol is set. -/
def Acceptable (protocolLength : Nat) (body : Bytes) : Prop :=
  protocolLength = 19 ∧ body.length = 67 ∧ body.take 19 = Bytes.ofString "BitTorrent protocol" ∧
    body.getD 24 0 &&& 0x10 ≠ 0

theorem exists_parseBody_iff {protocolLength : Nat} {bytes : Bytes} :
    (∃ handshake, parseBody protocolLength bytes = .ok handshake) ↔
      Acceptable protocolLength bytes := by
  refine ⟨fun given => ?_, fun acceptable => ?_⟩
  · obtain ⟨handshake, parsed⟩ := given
    obtain ⟨rfl, rfl, named, announced⟩ := parseBody_eq_ok_iff.mp parsed
    have nameSize : handshake.protocol.length = 19 := by
      rw [named]
      rfl
    have parts : handshake.body = handshake.protocol ++
        (handshake.reserved.toBytes ++ (handshake.infoHash.toBytes ++ handshake.peerId.toBytes)) := by
      simp [body]
    have bit := (announcesExtensions_iff parts).mp announced
    rw [nameSize] at bit
    refine ⟨nameSize, by rw [length_body, nameSize]; rfl, ?_, bit⟩
    rw [parts, List.take_left' nameSize]
    exact named
  · obtain ⟨rfl, size, named, announced⟩ := acceptable
    let handshake : Handshake := ⟨bytes.take 19, .slice 8 19 bytes (by omega),
      .slice 20 27 bytes (by omega), .slice 20 47 bytes (by omega)⟩
    have nameSize : handshake.protocol.length = 19 := List.length_take_of_le (by omega)
    have whole : bytes = handshake.body := eq_append_slices size
    have parts : bytes = handshake.protocol ++
        (handshake.reserved.toBytes ++ (handshake.infoHash.toBytes ++ handshake.peerId.toBytes)) := by
      simpa [body] using whole
    have announces : handshake.supportsExtensions = true := by
      rw [supportsExtensions, announcesExtensions_iff parts, nameSize]
      exact announced
    exact ⟨handshake, parseBody_eq_ok_iff.mpr ⟨whole, nameSize.symm, named, announces⟩⟩

@[simp] theorem Error.isProtocol_toFailure (cause : Error) : cause.toFailure.isProtocol = true := by
  cases cause <;> rfl

end Handshake

end MetaExchange
