import MetaExchange.Decimal.Reading

namespace MetaExchange

inductive Verbosity where
  | debug
  | info
  | error
  deriving DecidableEq

def Verbosity.tellsCourse : Verbosity → Bool
  | .debug | .info => true
  | .error => false

structure Options where
  target : String
  peer : String
  connectTimeout : Binary64
  idleTimeout : Binary64
  attemptTimeout : Binary64
  noVerify : Bool
  json : Bool
  verbose : Bool
  quiet : Bool
  deriving DecidableEq

namespace Options

def verbosity (options : Options) : Verbosity :=
  if options.verbose then .debug else if options.quiet then .error else .info

inductive Setting where
  | connectTimeout
  | idleTimeout
  | attemptTimeout
  deriving DecidableEq

inductive Switch where
  | noVerify
  | json
  | verbose
  | quiet
  | help
  deriving DecidableEq

inductive Named where
  | setting (setting : Setting)
  | switch (switch : Switch)
  deriving DecidableEq

def Named.ofLong? : String → Option Named
  | "connect-timeout" => some (.setting .connectTimeout)
  | "idle-timeout" => some (.setting .idleTimeout)
  | "timeout" => some (.setting .attemptTimeout)
  | "no-verify" => some (.switch .noVerify)
  | "json" => some (.switch .json)
  | "verbose" => some (.switch .verbose)
  | "quiet" => some (.switch .quiet)
  | "help" => some (.switch .help)
  | _ => none

def Named.ofShort? : Char → Option Named
  | 't' => some (.setting .attemptTimeout)
  | 'v' => some (.switch .verbose)
  | 'q' => some (.switch .quiet)
  | 'h' => some (.switch .help)
  | _ => none

def Setting.byDefault : Setting → Binary64
  | .connectTimeout => .ofRatio false 2 1
  | .idleTimeout => .ofRatio false 30 1
  | .attemptTimeout => .ofRatio false 60 1

inductive Refusal where
  | help
  | missingArgument
  /-- No option has the name, or there are too many arguments. -/
  | unknownArgument
  /-- An option is given twice, or two exclude each other. -/
  | conflict
  | invalidValue
  | missingValue
  | unwantedValue
  deriving DecidableEq

/-- The exit code: only asking for help is no mistake. -/
def Refusal.exitCode : Refusal → Nat
  | .help => 0
  | _ => 2

end Options

end MetaExchange
