import MetaExchange.Proofs.Exchange.Payloads
import MetaExchange.Proofs.Handshake
import MetaExchange.Proofs.Machine.Integrity
import MetaExchange.Proofs.Metadata

namespace MetaExchange

open Bencode (decodeDict)

namespace Failure

variable {failure : Failure}

end Failure

namespace Exchange

variable {exchange next : Exchange} {frame payload : Bytes} {actions : List Action} {fault : Fault}
  {table : Piece.Table}

end Exchange

namespace Machine

open Exchange (Account Action frameHandler)

variable {infoHash : InfoHash} {verify : Bool} {history : List (Stream.Delivery Action)} {last : Exchange}
  {fault : Exchange.Fault}

end Machine

end MetaExchange
