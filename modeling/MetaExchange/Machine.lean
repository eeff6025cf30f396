import MetaExchange.Exchange.Basic
import MetaExchange.Stream.Reassembler

namespace MetaExchange

namespace Exchange

/-- After an empty body, no other empty frame is awaited. -/
theorem frameSize_acceptBody_nil (exchange : Exchange) :
    (exchange.acceptBody []).1.awaiting = .messageLength := rfl

/-- Exchanges take frames. Only the body of a message could be awaited with no bytes, and a length is
awaited after it. -/
def frameHandler : Stream.FrameHandler Exchange Action where
  demand exchange := exchange.awaiting.frameSize
  accept := accept
  patience exchange := if exchange.awaiting.frameSize = some 0 then 1 else 0
  patience_accept_nil exchange empty := by
    have body : exchange.awaiting = .messageBody 0 := by
      cases awaited : exchange.awaiting <;>
        simp_all [Awaiting.frameSize, Handshake.tailSize, Message.lengthSize]
    have next : (exchange.accept []).1.awaiting = .messageLength := by
      simp only [accept, body]
      exact exchange.frameSize_acceptBody_nil
    rw [if_pos empty, next]
    decide

end Exchange

structure Machine where
  peerId : PeerId
  exchange : Exchange
  backlog : Stream.Backlog

namespace Machine

open Exchange (Action)

def fresh (infoHash : InfoHash) (peerId : PeerId) (verify : Bool) : Machine :=
  ⟨peerId, .fresh infoHash verify, .empty⟩

def start (machine : Machine) : Bytes :=
  (Handshake.ours machine.exchange.infoHash machine.peerId).serialize

def feed (machine : Machine) (bytes : Bytes) : Machine × List Action :=
  let fed := Exchange.frameHandler.feed machine.exchange machine.backlog bytes
  ({ machine with exchange := fed.state, backlog := fed.backlog }, fed.outputs)

def feedAll (machine : Machine) (reads : List Bytes) : Machine × List Action :=
  go machine reads []
where
  /-- Goes on after reads of which came `found`, newest first. -/
  go (machine : Machine) (reads : List Bytes) (found : List Action) : Machine × List Action :=
    match reads with
    | [] => (machine, found.reverse)
    | bytes :: rest => go (machine.feed bytes).1 rest ((machine.feed bytes).2.reverseAux found)

def isFinished (machine : Machine) : Bool := machine.exchange.isFinished

end Machine

end MetaExchange
