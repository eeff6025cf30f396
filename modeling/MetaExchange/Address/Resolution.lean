import MetaExchange.Address.Reading
import MetaExchange.Text.Numeral

/-!
Finding the address that the user means. Beside addresses in full there are hosts in other numeric
notations, with a port behind the last colon: up to four numbers between dots, of which the last fills
all the bytes that are left, and hosts of the sixth version without brackets. The scope of such a host
is a number, or the name of a network where the host is known within one network only.
-/

namespace MetaExchange.Address

/-- A number whose base shows: hexadecimal behind `0x`, octal behind `0`, decimal otherwise. -/
def basedNumber : Scan Nat
  | '0' :: 'x' :: rest | '0' :: 'X' :: rest => Scan.number 16 (UInt32.size - 1) rest
  | '0' :: rest => Scan.number 8 (UInt32.size - 1) ('0' :: rest)
  | text => Scan.number 10 (UInt32.size - 1) text

/-- The number of a host, of which `bytes` bytes are still to be read behind `value`. -/
def hostNumber : (bytes value : Nat) → List Char → Option Nat
  | 0, _, _ => none
  | bytes + 1, value, text =>
    match basedNumber text with
    | none => none
    | some (part, []) =>
      let range := Nat.pow 256 (bytes + 1)
      if part < range then some (value * range + part) else none
    | some (part, '.' :: rest) =>
      if part < 256 then hostNumber bytes (value * 256 + part) rest else none
    | some _ => none

/-- Whether a host is known within one network only: a link-local host, or a group of hosts that reaches
no further than its machine or its link. -/
def IPv6.isLocal (host : IPv6) : Bool :=
  match host.groups with
  | [] => false
  | first :: _ => first / 64 = 0xfe80 / 64 ∨ first / 256 = 0xff ∧ (first % 16 = 1 ∨ first % 16 = 2)

/-- The network that a machine forms with itself, as a scope gives it. -/
def loopbackName : List Char := "%lo".toList

def loopbackScope : UInt32 := 1

def scopeOf? (host : IPv6) (text : List Char) : Option UInt32 :=
  match Scan.scope text with
  | (scope, []) => some scope
  | _ => if host.isLocal ∧ text = loopbackName then some loopbackScope else none

def ofHost? (host : List Char) (port : UInt16) : Option Socket :=
  match hostNumber 4 0 host with
  | some value => some (.v4 (IPv4.ofNat value) port)
  | none => do
    let (host, rest) ← Scan.ipv6 host
    let scope ← scopeOf? host rest
    some (.v6 host scope port)

inductive ResolutionError where
  | noPort
  | invalidPort
  | unknownHost
  deriving DecidableEq

def ResolutionError.reason : ResolutionError → String
  | .noPort => "invalid socket address"
  | .invalidPort => "invalid port value"
  | .unknownHost => "failed to lookup address information: Name or service not known"

def ResolutionError.toFailure (text : String) (error : ResolutionError) : Failure :=
  .network "Failed to resolve peer address" text error.reason

def splitAtLastColon? (text : List Char) : Option (List Char × List Char) :=
  let (behind, rest) := text.reverse.span (· ≠ ':')
  match rest with
  | [] => none
  | _ :: front => some (front.reverse, behind.reverse)

def hostAndPort (text : String) : Except ResolutionError (List Char × UInt16) :=
  match splitAtLastColon? text.toList with
  | none => .error .noPort
  | some (host, port) =>
    match Numeral.unsigned? (UInt16.size - 1) (port.flatMap String.utf8EncodeChar) with
    | none => .error .invalidPort
    | some port => .ok (host, UInt16.ofNat port)

def resolve (text : String) : Except ResolutionError Socket :=
  match Socket.ofText? text with
  | some address => .ok address
  | none =>
    match hostAndPort text with
    | .error e => .error e
    | .ok (host, port) =>
      match ofHost? host port with
      | none => .error .unknownHost
      | some address => .ok address

end MetaExchange.Address
