import MetaExchange.Proofs.Machine.Boundary

namespace MetaExchange.Machine

open Exchange (Action)
open Handshake (Acceptable parseBody)

variable {peerId : PeerId} {exchange : Exchange} {length : UInt8} {body : Bytes}

theorem feed_acceptable (peerId : PeerId) (awaited : exchange.awaiting = .handshakeLength)
    (whole : body.length = length.toNat + 48) (acceptable : Acceptable length.toNat body) :
    ∃ sender : PeerId, sender.toBytes = ((length :: body).drop 48).take 20 ∧
      ((idle peerId exchange).feed (length :: body)).2 = Exchange.greeting sender := by
  obtain ⟨handshake, parsed⟩ := Handshake.exists_parseBody_iff.mpr acceptable
  obtain ⟨same, size, _, _⟩ := Handshake.parseBody_eq_ok_iff.mp parsed
  have nameSize : handshake.protocol.length = 19 := size.symm.trans acceptable.1
  have behind := handshake.drop_body
  rw [← same, nameSize] at behind
  refine ⟨handshake.peerId, ?_, ?_⟩
  · rw [List.drop_succ_cons, behind, List.take_of_length_le]
    rw [handshake.peerId.length_toBytes]
  · rw [feed_handshake awaited whole, Exchange.acceptHandshake_of_ok parsed]

theorem feed_unacceptable (peerId : PeerId) (awaited : exchange.awaiting = .handshakeLength)
    (whole : body.length = length.toNat + 48) (unacceptable : ¬ Acceptable length.toNat body) :
    ∃ fault, ((idle peerId exchange).feed (length :: body)).2 = [.report (.error fault)] ∧
      fault.toFailure.isProtocol = true := by
  cases parsed : parseBody length.toNat body with
  | ok handshake => exact absurd (Handshake.exists_parseBody_iff.mp ⟨handshake, parsed⟩) unacceptable
  | error cause =>
      refine ⟨.handshake cause, ?_, cause.isProtocol_toFailure⟩
      rw [feed_handshake awaited whole, Exchange.acceptHandshake_of_error parsed, Exchange.fail]

/-- A greeting is read exactly if it is acceptable, and then writing what was read gives the bytes of the
greeting again; whatever greeting is written for this protocol, with the extension protocol announced, is
read back. A machine that is fed a whole greeting reports its sender and answers if it is acceptable, and
otherwise reports that the protocol was broken, and nothing else. -/
theorem feedAll_handshake_exact :
    (∀ (protocolLength : Nat) (body : Bytes),
      ((∃ handshake, parseBody protocolLength body = .ok handshake) ↔
        Acceptable protocolLength body) ∧
      ∀ handshake, parseBody protocolLength body = .ok handshake →
        handshake.serialize = UInt8.ofNat protocolLength :: body) ∧
    (∀ handshake : Handshake, handshake.protocol = Bytes.ofString "BitTorrent protocol" →
      handshake.reserved.toBytes.getD 5 0 &&& 0x10 ≠ 0 →
      parseBody 19 (handshake.serialize.drop 1) = .ok handshake) ∧
    ∀ (infoHash : InfoHash) (peerId : PeerId) (verify : Bool) (length : UInt8) (body : Bytes)
      (reads : List Bytes), body.length = length.toNat + 48 → reads.flatten = length :: body →
      (Acceptable length.toNat body →
        ∃ sender : PeerId, sender.toBytes = ((length :: body).drop 48).take 20 ∧
          ((fresh infoHash peerId verify).feedAll reads).2 =
            [.report (.handshakeOk sender), .send Extension.ourAnnouncement]) ∧
      (¬ Acceptable length.toNat body →
        ∃ fault, ((fresh infoHash peerId verify).feedAll reads).2 = [.report (.error fault)] ∧
          fault.toFailure.isProtocol = true) := by
  refine ⟨fun protocolLength body => ⟨Handshake.exists_parseBody_iff, fun handshake parsed => ?_⟩,
    fun handshake named announced => ?_, ?_⟩
  · obtain ⟨rfl, rfl, _, _⟩ := Handshake.parseBody_eq_ok_iff.mp parsed
    rfl
  · have nameSize : handshake.protocol.length = 19 := by
      rw [named]
      rfl
    rw [← nameSize]
    exact Handshake.parseBody_body named (bne_iff_ne.mpr announced)
  · intro infoHash peerId verify length body reads whole spoken
    rw [feedAll_fresh, spoken]
    exact ⟨feed_acceptable peerId rfl whole, feed_unacceptable peerId rfl whole⟩

/-- One peer announces the extension protocol, and one does not. -/
theorem feedAll_handshake_exact_extensions :
    let infoHash : InfoHash := ⟨List.replicate 20 0xab, rfl⟩
    let machine := fresh infoHash PeerSide.peerId true
    let ours := Handshake.ours infoHash PeerSide.peerId
    let silent := PeerSide.handshakeWithoutExtensions infoHash
    ours.reserved.toBytes.getD 5 0 &&& 0x10 ≠ 0 ∧
      parseBody 19 (ours.serialize.drop 1) = .ok ours ∧ Acceptable 19 ours.body ∧
      (∃ sender : PeerId, sender.toBytes = Bytes.ofString "-MO0001-remotepeer01" ∧
        (machine.feedAll [ours.serialize.take 1, ours.serialize.drop 1]).2 =
          [.report (.handshakeOk sender), .send Extension.ourAnnouncement]) ∧
      ¬ Acceptable 19 (silent.drop 1) ∧
      ∃ fault, (machine.feedAll [silent]).2 = [.report (.error fault)] ∧
        fault.toFailure.isProtocol = true := by
  intro infoHash machine ours silent
  obtain ⟨codec, readBack, answer⟩ := feedAll_handshake_exact
  have announced : ours.reserved.toBytes.getD 5 0 &&& 0x10 ≠ 0 := by decide
  have acceptable : Acceptable 19 ours.body := ⟨rfl, rfl, rfl, by decide⟩
  have unacceptable : ¬ Acceptable 19 (silent.drop 1) := fun given => given.2.2.2 (by decide)
  obtain ⟨sender, same, greeted⟩ := (answer infoHash PeerSide.peerId true 19 ours.body
    [ours.serialize.take 1, ours.serialize.drop 1] rfl rfl).1 acceptable
  exact ⟨announced, readBack ours rfl announced, acceptable, ⟨sender, same, greeted⟩, unacceptable,
    (answer infoHash PeerSide.peerId true 19 (silent.drop 1) [silent] rfl rfl).2 unacceptable⟩

end MetaExchange.Machine
