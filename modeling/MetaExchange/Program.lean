import MetaExchange.Address.Resolution
import MetaExchange.Connection.Attempt
import MetaExchange.Options.CommandLine
import MetaExchange.Report
import MetaExchange.Target

namespace MetaExchange.Program

structure Request where
  options : Options
  target : Target
  settings : Settings

structure Job extends Request where
  address : Address.Socket

inductive Obstacle where
  /-- The command line cannot be read, or only help is asked for. -/
  | refusal (cause : Options.Refusal)
  | target (cause : Target.Error)
  | settings (cause : Settings.Error)
  | address (text : String) (cause : Address.ResolutionError)
  deriving DecidableEq

/-- What a command line asks for. The target is looked at before the settings. -/
def request (words : List String) : Except Obstacle Request := do
  let options ← (Options.parse words).mapError .refusal
  let target ← (Target.parse options.target).mapError .target
  let settings := Settings.ofOptions options
  settings.check.mapError .settings
  return { options, target, settings }

def Request.job (request : Request) (resolved : Except Address.ResolutionError Address.Socket) :
    Except Obstacle Job :=
  match resolved with
  | .error cause => .error (.address request.options.peer cause)
  | .ok address => .ok { request with address }

structure Ending where
  exitCode : Nat
  output : String
  error : Option String
  deriving DecidableEq

def Ending.failed (text : String) : Ending := ⟨1, "", some text⟩

def Ending.brokenOff : Ending := ⟨101, "", none⟩

/-- The end of a program that has nothing to do. What is told of a command line that cannot be read is
left to those who read it. -/
def Obstacle.ending : Obstacle → Ending
  | .refusal cause => ⟨cause.exitCode, "", none⟩
  | .target cause => .failed ("Invalid target: " ++ cause.toFailure.render)
  | .settings cause => .failed ("Invalid configuration: " ++ cause.toFailure.render)
  | .address text cause => .failed (cause.toFailure text).render

def Job.failed (job : Job) (failure : Failure) : Ending :=
  let hash := Hex.encode job.target.infoHash.toBytes
  .failed s!"Failed to fetch metadata for {hash} from {job.address.render}: {failure.render}"

def Job.ending (job : Job) (elapsed : Duration) : Connection.Outcome → Ending
  | .error cause => job.failed (cause.toFailure job.address.render)
  | .ok metadata =>
    match metadata.logged? job.options.verbosity.tellsCourse with
    -- The reader of the connection broke off before it could hand on the metadata.
    | none =>
      job.failed (.peer "Connection ended without a result" job.address.render "result channel closed")
    | some metadata =>
      let report : Report := ⟨metadata, job.address.render, elapsed⟩
      match report.render? job.options.json job.options.quiet with
      | none => .brokenOff
      | some text => ⟨0, text, none⟩

def Job.machine (job : Job) (random : FixedBytes 12) : Machine :=
  .fresh job.target.infoHash (job.settings.identity random) job.settings.verify

/-- The end of the program for a command line, where the peer behaves in a certain way. -/
def run (words : List String) (random : FixedBytes 12) (elapsed : Duration)
    (behaviour : Connection.Behaviour) : Ending :=
  match (request words).bind fun request => request.job (Address.resolve request.options.peer) with
  | .error obstacle => obstacle.ending
  | .ok job =>
    job.ending elapsed (Connection.attempt job.settings (job.machine random) behaviour)

end MetaExchange.Program
