import MetaExchange.Program
import Std.Async.DNS
import Std.Async.TCP
import Std.Async.Timer

namespace MetaExchange.Main

open Connection (Error Outcome SystemError Trouble)
open Std.Async

def readSize : UInt64 := 4096

/-- A span for a timer, which counts milliseconds; what is too long for it is as good as endless. -/
def milliseconds (duration : Duration) : Std.Time.Millisecond.Offset :=
  .ofNat (min ((duration.nanoseconds + 999999) / 1000000) UInt32.size)

def numberAndText? : IO.Error → Option (UInt32 × String)
  | .alreadyExists _ number text | .otherError number text | .resourceBusy number text
  | .resourceVanished number text | .unsupportedOperation number text | .hardwareFault number text
  | .unsatisfiedConstraints number text | .illegalOperation number text
  | .protocolError number text | .timeExpired number text | .interrupted _ number text
  | .noFileOrDirectory _ number text | .invalidArgument _ number text
  | .permissionDenied _ number text | .resourceExhausted _ number text
  | .inappropriateType _ number text | .noSuchThing _ number text => some (number, text)
  | .unexpectedEof | .userError _ => none

/-- An error that the runtime reports. It gives the negative of the system's number. -/
def systemError (error : IO.Error) : SystemError :=
  match numberAndText? error with
  | none => .explained .other error.toString
  | some (number, text) =>
    let known := [SystemError.connectionRefused, .connectionReset, .brokenPipe]
    let met := SystemError.numbered .other text.capitalize (0 - number).toNat
    (known.find? fun one => one.describe = met.describe).getD met

def within {α : Type} (limit : Duration) (late : α) (action : Async α) : Async α := do
  let outcome ← Async.race (some <$> action) (do sleep (milliseconds limit); return none)
  return outcome.getD late

def dialled : Address.Socket → Std.Net.SocketAddress
  | .v4 host port => .v4 ⟨⟨#v[host.a, host.b, host.c, host.d]⟩, port⟩
  | .v6 host _ port =>
    .v6 ⟨⟨Vector.ofFn fun place => host.groups.get (place.cast host.length_groups.symm)⟩, port⟩

def lookUp (host : String) (port : UInt16) : Async (Option Address.Socket) := do
  try
    let found ← DNS.getAddrInfo host (toString port)
    return found[0]?.bind fun
      | .v4 address =>
        match address.octets.toList with
        | [a, b, c, d] => some (.v4 ⟨a, b, c, d⟩ port)
        | _ => none
      | .v6 address =>
        (Address.IPv6.ofGroups? address.segments.toList).map fun host => .v6 host 0 port
  catch _ => return none

def resolve (text : String) : Async (Except Address.ResolutionError Address.Socket) := do
  match Address.resolve text, Address.hostAndPort text with
  | .error .unknownHost, .ok (host, port) =>
    match ← lookUp (String.ofList host) port with
    | some address => return .ok address
    | none => return .error .unknownHost
  | resolved, _ => return resolved

def dial (address : Address.Socket) (limit : Duration) : Async (Except Trouble TCP.Socket.Client) :=
  within limit (.error .dialTimeout) do
    try
      let socket ← TCP.Socket.Client.mk
      socket.connect (dialled address)
      return .ok socket
    catch error => return .error (.dialFailed (systemError error))

def write (socket : TCP.Socket.Client) (message : Bytes) : Async (Except Trouble Unit) := do
  try
    socket.send ⟨message.toArray⟩
    return .ok ()
  catch error => return .error (.writeFailed (systemError error))

def read (socket : TCP.Socket.Client) (limit : Duration) : Async (Except Trouble Bytes) := do
  try
    Selectable.one #[
      .case (socket.recvSelector readSize) fun received =>
        return match received with
          | some bytes => .ok bytes.toList
          | none => .error .endOfStream,
      .case (← Selector.sleep (milliseconds limit)) fun _ => return .error (.idleTimeout limit)]
  catch error => return .error (.readFailed (systemError error))

def perform (socket : TCP.Socket.Client) : List Exchange.Action → Async (Option Outcome)
  | [] => return none
  | .send message :: rest => do
    match ← write socket message with
    | .error trouble => return some (.error (.trouble trouble))
    | .ok () => perform socket rest
  | .report event :: rest =>
    match event.outcome? with
    | some outcome => return some (.ofExchange outcome)
    | none => perform socket rest

partial def converse (socket : TCP.Socket.Client) (idle : Duration) (machine : Machine) :
    Async Outcome := do
  match ← read socket idle with
  | .error trouble => return .error (.trouble trouble)
  | .ok bytes =>
    let (machine, actions) := machine.feed bytes
    match ← perform socket actions with
    | some outcome => return outcome
    | none => converse socket idle machine

def fetch (job : Program.Job) (machine : Machine) : Async Outcome :=
  let limit := job.settings.attemptTimeout
  within limit (.error (.trouble (.attemptTimeout limit))) do
    match ← dial job.address job.settings.connectTimeout with
    | .error trouble => return .error (.trouble trouble)
    | .ok socket =>
      match ← perform socket [.send machine.start] with
      | some outcome => return outcome
      | none => converse socket job.settings.idleTimeout machine

def draw : IO (FixedBytes 12) := do
  match FixedBytes.ofBytes? 12 (← IO.getRandomBytes 12).toList with
  | some bytes => return bytes
  | none => return ⟨List.replicate 12 0, rfl⟩

def carryOut (job : Program.Job) : IO Program.Ending := do
  let machine := job.machine (← draw)
  let started ← IO.monoNanosNow
  let outcome ← (fetch job machine).block
  return job.ending ⟨(← IO.monoNanosNow) - started⟩ outcome

def usage : String :=
  "Usage: metaexchange [OPTIONS] <TARGET> <PEER_ADDR>\n\n" ++
  "  <TARGET>                  40-character hex info hash or magnet link\n" ++
  "  <PEER_ADDR>               peer address (host:port)\n" ++
  "  --connect-timeout <SECS>  connection timeout in seconds [default: 2]\n" ++
  "  --idle-timeout <SECS>     maximum seconds without data from the peer [default: 30]\n" ++
  "  -t, --timeout <SECS>      overall timeout for the fetch in seconds [default: 60]\n" ++
  "  --no-verify               skip the SHA-1 check of the received metadata\n" ++
  "  --json                    print the result as JSON\n" ++
  "  -v, --verbose             verbose output\n" ++
  "  -q, --quiet               no output except errors\n" ++
  "  -h, --help                print help"

/-- Tells how the program is called: those who ask for it, and those who called it otherwise. -/
def tellUsage : Program.Obstacle → IO Unit
  | .refusal .help => IO.println usage
  | .refusal _ => IO.eprintln ("error: invalid arguments\n\n" ++ usage)
  | _ => return ()

def tell (ending : Program.Ending) : IO UInt32 := do
  IO.print ending.output
  if let some error := ending.error then IO.eprintln ("Error: " ++ error)
  return UInt32.ofNat ending.exitCode

def run (words : List String) : IO UInt32 := do
  match Program.request words with
  | .error obstacle =>
    tellUsage obstacle
    tell obstacle.ending
  | .ok request =>
    match request.job (← (resolve request.options.peer).block) with
    | .error obstacle => tell obstacle.ending
    | .ok job => tell (← carryOut job)

end MetaExchange.Main

def main (words : List String) : IO UInt32 := MetaExchange.Main.run words
