import MetaExchange.Proofs.Connection.Outbound
import MetaExchange.Proofs.Connection.Schedule
import MetaExchange.Proofs.Machine.Faults

/-!
Where an error comes from. An error is held against the connection exactly if a read, a write or a limit in
time brought it about; what the peer said with bytes that did arrive is never taken for that. An error is
followed on its way from the reader to the outcome (`State.Carries`).
-/

namespace MetaExchange.Connection

open Exchange (Action)

namespace System

variable {start state next : State} {move : Move} {error : Error}

variable {infoHash : InfoHash} {peerId : PeerId} {verify : Bool} {reads : List Bytes} {ending : Trouble}
  {allowed : Move → Prop}

end System

end MetaExchange.Connection
