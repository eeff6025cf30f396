import MetaExchange.Exchange.Fault

namespace MetaExchange.Exchange

inductive Event where
  | error (fault : Fault)
  | handshakeOk (peerId : PeerId)
  /-- The terms are agreed on, and the pieces are being asked for. -/
  | extendedOk (metadataSize pieceCount : Nat)
  /-- A piece was stored; `received` slots are filled now. -/
  | pieceReceived (index received pieceCount : Nat)
  | done (metadata : Metadata)
  deriving DecidableEq

namespace Event

def outcome? : Event → Option (Except Fault Metadata)
  | .error fault => some (.error fault)
  | .done metadata => some (.ok metadata)
  | _ => none

def isTerminal (event : Event) : Bool := event.outcome?.isSome

end Event

inductive Action where
  | send (message : Bytes)
  | report (event : Event)
  deriving DecidableEq

namespace Action

def outcome? : Action → Option (Except Fault Metadata)
  | .send _ => none
  | .report event => event.outcome?

/-- What the last of the actions that report the end of an exchange says. -/
def lastOutcome? (actions : List Action) : Option (Except Fault Metadata) :=
  actions.reverse.findSome? outcome?

end Action

end MetaExchange.Exchange
