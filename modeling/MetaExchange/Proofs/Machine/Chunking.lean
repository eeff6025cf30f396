import MetaExchange.Machine
import MetaExchange.PeerSide
import MetaExchange.Proofs.Stream.Delivery

namespace MetaExchange.Machine

open Exchange (Action frameHandler)

variable {machine : Machine} {reads : List Bytes}

theorem feed_eq (machine : Machine) (bytes : Bytes) :
    machine.feed bytes =
      let drained := frameHandler.drain machine.exchange (machine.backlog.toList ++ bytes)
      ({ machine with exchange := drained.state, backlog := .ofList drained.rest },
        drained.outputs) := by
  simp only [feed, Stream.FrameHandler.feed_eq]

theorem feed_append (machine : Machine) (bytes more : Bytes) :
    machine.feed (bytes ++ more) =
      (((machine.feed bytes).1.feed more).1,
        (machine.feed bytes).2 ++ ((machine.feed bytes).1.feed more).2) := by
  simp only [feed_eq, Stream.Backlog.toList_ofList]
  rw [← List.append_assoc, Stream.FrameHandler.drain_append]

/-- Nothing comes of a read of no bytes: no whole frame waits. -/
def Settled (machine : Machine) : Prop := machine.feed [] = (machine, [])

theorem settled_fresh (infoHash : InfoHash) (peerId : PeerId) (verify : Bool) :
    (fresh infoHash peerId verify).Settled := rfl

theorem settled_feed (machine : Machine) (bytes : Bytes) : (machine.feed bytes).1.Settled := by
  have twice := feed_append machine bytes []
  rw [List.append_nil] at twice
  obtain ⟨sameMachine, sameActions⟩ := Prod.mk.inj twice
  exact Prod.ext sameMachine.symm (List.self_eq_append_right.mp sameActions)

theorem feedAll_go_eq (machine : Machine) (reads : List Bytes) (found : List Action) :
    feedAll.go machine reads found =
      ((feedAll.go machine reads []).1, found.reverse ++ (feedAll.go machine reads []).2) := by
  induction reads generalizing machine found with
  | nil => simp [feedAll.go]
  | cons bytes rest ih =>
      simp only [feedAll.go]
      rw [ih _ ((machine.feed bytes).2.reverseAux found), ih _ ((machine.feed bytes).2.reverseAux [])]
      simp [List.reverseAux_eq]

@[simp] theorem feedAll_nil (machine : Machine) : machine.feedAll [] = (machine, []) := rfl

theorem feedAll_cons (machine : Machine) (bytes : Bytes) (rest : List Bytes) :
    machine.feedAll (bytes :: rest) =
      (((machine.feed bytes).1.feedAll rest).1,
        (machine.feed bytes).2 ++ ((machine.feed bytes).1.feedAll rest).2) := by
  simp only [feedAll, feedAll.go]
  rw [feedAll_go_eq]
  simp [List.reverseAux_eq]

/-- Any reads may be fed as one. -/
theorem feedAll_eq_feed (settled : machine.Settled) (reads : List Bytes) :
    machine.feedAll reads = machine.feed reads.flatten := by
  induction reads generalizing machine with
  | nil => exact settled.symm
  | cons bytes rest ih =>
      rw [feedAll_cons, List.flatten_cons, feed_append, ih (settled_feed machine bytes)]

theorem feedAll_fresh (infoHash : InfoHash) (peerId : PeerId) (verify : Bool) (reads : List Bytes) :
    (fresh infoHash peerId verify).feedAll reads =
      (fresh infoHash peerId verify).feed reads.flatten :=
  feedAll_eq_feed (settled_fresh infoHash peerId verify) reads

/-- A stream that is cut into reads in two ways leads to the same actions in the same order, and to the
same machine: it awaits the same frame, knows the same number of the peer, holds the same pieces, and
keeps the same bytes back. -/
theorem feedAll_eq_of_flatten_eq (infoHash : InfoHash) (peerId : PeerId) (verify : Bool)
    (first second : List Bytes) (same : first.flatten = second.flatten) :
    (fresh infoHash peerId verify).feedAll first =
      (fresh infoHash peerId verify).feedAll second := by
  rw [feedAll_fresh, feedAll_fresh, same]

/-- A greeting that comes in one read, and one that is cut behind its first byte. -/
theorem feedAll_greeting_cut :
    let infoHash : InfoHash := ⟨List.replicate 20 0xab, rfl⟩
    let greeting := PeerSide.handshake infoHash
    let cut := [greeting.take 1, [], greeting.drop 1]
    [greeting].flatten = cut.flatten ∧
      (fresh infoHash PeerSide.peerId true).feedAll [greeting] =
        (fresh infoHash PeerSide.peerId true).feedAll cut := by
  intro infoHash greeting cut
  have same : [greeting].flatten = cut.flatten := rfl
  exact ⟨same, feedAll_eq_of_flatten_eq infoHash PeerSide.peerId true [greeting] cut same⟩

end MetaExchange.Machine
