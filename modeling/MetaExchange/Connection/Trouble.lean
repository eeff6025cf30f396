import MetaExchange.Connection.SystemError
import MetaExchange.Duration

namespace MetaExchange.Connection

inductive Trouble where
  | dialTimeout
  | dialFailed (cause : SystemError)
  | attemptTimeout (limit : Duration)
  | writeFailed (cause : SystemError)
  | readFailed (cause : SystemError)
  | endOfStream
  /-- The peer was silent for longer than the limit. -/
  | idleTimeout (limit : Duration)
  deriving DecidableEq

def Trouble.toFailure (address : String) : Trouble → Failure
  | .dialTimeout => .network "Connection timeout" address "deadline has elapsed"
  | .dialFailed cause => .network "Failed to connect" address cause.describe
  | .attemptTimeout limit =>
    .network "Fetch attempt timed out" address s!"no result within {limit.describe}"
  | .writeFailed cause => .network "Failed to send message" address cause.describe
  | .readFailed cause => .network "Failed to read from peer" address cause.describe
  | .endOfStream => .peer "Peer closed the connection" address "end of stream"
  | .idleTimeout limit =>
    .network "Peer idle timeout" address s!"no data for {limit.describe}"

end MetaExchange.Connection
