import MetaExchange.Bytes.Basic
import MetaExchange.Duration
import MetaExchange.Failure
import MetaExchange.Options.Basic

namespace MetaExchange

structure Settings where
  connectTimeout : Duration
  idleTimeout : Duration
  attemptTimeout : Duration
  verify : Bool
  /-- What we call ourselves, if it is not to be made up. -/
  peerId : Option PeerId
  deriving DecidableEq

namespace Settings

def standard : Settings where
  connectTimeout := .ofSeconds 2
  idleTimeout := .ofSeconds 30
  attemptTimeout := .ofSeconds 60
  verify := true
  peerId := none

def ofOptions (options : Options) : Settings where
  connectTimeout := .ofBinary64 options.connectTimeout
  idleTimeout := .ofBinary64 options.idleTimeout
  attemptTimeout := .ofBinary64 options.attemptTimeout
  verify := !options.noVerify
  peerId := none

inductive Timeout where
  | connect
  | idle
  | attempt
  deriving DecidableEq

def Timeout.name : Timeout → String
  | .connect => "connect_timeout"
  | .idle => "idle_timeout"
  | .attempt => "attempt_timeout"

def timeout (settings : Settings) : Timeout → Duration
  | .connect => settings.connectTimeout
  | .idle => settings.idleTimeout
  | .attempt => settings.attemptTimeout

inductive Error where
  | zero (timeout : Timeout)
  | idleTooLong (idle attempt : Duration)
  deriving DecidableEq

def Error.toFailure : Error → Failure
  | .zero timeout => .config "Timeout must be greater than zero" timeout.name
  | .idleTooLong idle attempt =>
    .config
      s!"idle_timeout ({idle.describe}) cannot exceed attempt_timeout ({attempt.describe})"
      Timeout.idle.name

/-- Settings make sense if no timeout is zero and the peer may not be silent for longer than the
attempt may take. -/
def check (settings : Settings) : Except Error Unit :=
  match [Timeout.connect, .idle, .attempt].find? fun t => settings.timeout t = .zero with
  | some timeout => .error (.zero timeout)
  | none =>
    if settings.attemptTimeout.nanoseconds < settings.idleTimeout.nanoseconds then
      .error (.idleTooLong settings.idleTimeout settings.attemptTimeout)
    else .ok ()

def ownMark : Bytes := Bytes.ofString "-RM0001-"

def madeUpId (random : FixedBytes 12) : PeerId :=
  ⟨ownMark ++ random.toBytes, by
    rw [List.length_append, random.length_toBytes]
    rfl⟩

def identity (settings : Settings) (random : FixedBytes 12) : PeerId :=
  settings.peerId.getD (madeUpId random)

end Settings

end MetaExchange
