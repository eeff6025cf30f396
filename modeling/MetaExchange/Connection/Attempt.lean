import MetaExchange.Connection.Trouble
import MetaExchange.Machine
import MetaExchange.Settings

/-!
What an attempt to fetch metadata from a peer comes to, by how the peer and the connection to it behave.

What the bytes of the peer say goes before how the connection ends: an end that comes behind the last
piece changes nothing.
-/

namespace MetaExchange.Connection

inductive Error where
  | settings (cause : Settings.Error)
  | trouble (cause : Trouble)
  | fault (cause : Exchange.Fault)
  deriving DecidableEq

def Error.toFailure (address : String) : Error → Failure
  | .settings cause => cause.toFailure
  | .trouble cause => cause.toFailure address
  | .fault cause => cause.toFailure

abbrev Outcome := Except Error Metadata

def Outcome.ofExchange : Except Exchange.Fault Metadata → Outcome
  | .error fault => .error (.fault fault)
  | .ok metadata => .ok metadata

inductive Ending where
  | closes
  | staysSilent
  | keepsAlive
  | readFails (cause : SystemError)
  /-- Nothing can be written, not even our greeting. -/
  | writeFails (cause : SystemError)
  deriving DecidableEq

inductive Behaviour where
  | refuses (cause : SystemError)
  | neverAnswers
  | sends (bytes : Bytes) (ending : Ending)
  deriving DecidableEq

/-- What goes wrong at the end of a stream that did not end the exchange. Of two timeouts that run out
together, that of the attempt counts. -/
def Ending.trouble (settings : Settings) : Ending → Trouble
  | .closes => .endOfStream
  | .staysSilent =>
    if settings.idleTimeout = settings.attemptTimeout then .attemptTimeout settings.attemptTimeout
    else .idleTimeout settings.idleTimeout
  | .keepsAlive => .attemptTimeout settings.attemptTimeout
  | .readFails cause => .readFailed cause
  | .writeFails cause => .writeFailed cause

def exchangeOutcome? (machine : Machine) (bytes : Bytes) : Option Outcome :=
  (Exchange.Action.lastOutcome? (machine.feed bytes).2).map Outcome.ofExchange

def attempt (settings : Settings) (machine : Machine) (behaviour : Behaviour) : Outcome :=
  match settings.check with
  | .error cause => .error (.settings cause)
  | .ok () =>
    match behaviour with
    | .refuses cause => .error (.trouble (.dialFailed cause))
    | .neverAnswers =>
      if settings.attemptTimeout.nanoseconds < settings.connectTimeout.nanoseconds then
        .error (.trouble (.attemptTimeout settings.attemptTimeout))
      else .error (.trouble .dialTimeout)
    | .sends _ (.writeFails cause) => .error (.trouble (.writeFailed cause))
    | .sends bytes ending =>
      (exchangeOutcome? machine bytes).getD (.error (.trouble (ending.trouble settings)))

end MetaExchange.Connection
