import MetaExchange.Bytes.Basic
import MetaExchange.Text.CharLiteral

namespace MetaExchange.Hex

def digit (value : Nat) : Char :=
  if value < 10 then Char.ofNat ('0'.toNat + value) else Char.ofNat ('a'.toNat + (value - 10))

def encode (bytes : Bytes) : String :=
  String.ofList (bytes.flatMap fun byte => [digit (byte.toNat / 16), digit (byte.toNat % 16)])

def value? (code : UInt8) : Option Nat :=
  if '0'.toUInt8 ≤ code ∧ code ≤ '9'.toUInt8 then some (code.toNat - '0'.toNat)
  else if 'a'.toUInt8 ≤ code ∧ code ≤ 'f'.toUInt8 then some (code.toNat - 'a'.toNat + 10)
  else if 'A'.toUInt8 ≤ code ∧ code ≤ 'F'.toUInt8 then some (code.toNat - 'A'.toNat + 10)
  else none

inductive Error where
  | oddLength
  | notDigit (code : UInt8) (position : Nat)
  deriving DecidableEq

def Error.message : Error → String
  | .oddLength => "Odd number of digits"
  | .notDigit code position =>
    s!"Invalid character {Text.charLiteral (Char.ofNat code.toNat)} at position {position}"

/-- The bytes written by the digits from `position` on; the first byte that is no digit is named. -/
def decodePairs (position : Nat) : Bytes → Except Error Bytes
  | high :: low :: rest =>
    match value? high, value? low with
    | none, _ => .error (.notDigit high position)
    | some _, none => .error (.notDigit low (position + 1))
    | some h, some l => (decodePairs (position + 2) rest).map (UInt8.ofNat (h * 16 + l) :: ·)
  | _ => .ok []

/-- The bytes written by ASCII digits. The number of digits is looked at first. -/
def decode (digits : Bytes) : Except Error Bytes :=
  if digits.length % 2 = 1 then .error .oddLength else decodePairs 0 digits

end MetaExchange.Hex
