import MetaExchange.Bencode.Value
import MetaExchange.Bytes.Hex
import MetaExchange.Bytes.Reader
import MetaExchange.Failure
import MetaExchange.Text.Utf8

/-!
Reading one bencode value from the front of a byte string, and telling how many bytes it took. What
follows it is never looked at, except that the end of an integer and of a length are searched for in
all that follows.

Values may be nested in up to 64 containers; the reader carries how many levels are left.
-/

namespace MetaExchange.Bencode

inductive Error where
  | tooDeep
  | endOfData
  | unterminatedInteger
  | invalidInteger (text : Bytes)
  | unterminatedLength
  | invalidLength (text : Bytes)
  | stringTooLong (declared available : Nat)
  | unterminatedList
  | keyNotString
  | unterminatedDictionary
  /-- The place is counted from the start of the data. -/
  | unknownType (byte : UInt8) (offset : Nat)
  | notDictionary
  deriving DecidableEq

def Error.toFailure : Error → Failure
  | .tooDeep => .decode "Bencode nesting too deep" none
  | .endOfData => .decode "Unexpected end of data" none
  | .unterminatedInteger => .decode "Unterminated integer" none
  | .invalidInteger text => .decode "Invalid integer" (Utf8.lossy text)
  | .unterminatedLength => .decode "Unterminated string length" none
  | .invalidLength text => .decode "Invalid string length" (Utf8.lossy text)
  | .stringTooLong declared available =>
    .decode "String runs past end of data" s!"declared {declared} bytes, {available} available"
  | .unterminatedList => .decode "Unterminated list" none
  | .keyNotString => .decode "Dictionary key must be a byte string" none
  | .unterminatedDictionary => .decode "Unterminated dictionary" none
  | .unknownType byte offset =>
    .decode "Unknown bencode type" s!"byte 0x{Hex.encode [byte]} at offset {offset}"
  | .notDictionary => .decode "Expected a bencoded dictionary" none

def maxDepth : Nat := 64

def terminator : UInt8 := 'e'.toUInt8

def integer : Reader Error Value :=
  (Reader.upTo terminator .unterminatedInteger).tryMap fun digits =>
    match Numeral.int64? digits with
    | none => .error (.invalidInteger digits)
    | some value => .ok (.int value)

def stringLength : Reader Error Nat :=
  (Reader.upTo ':'.toUInt8 .unterminatedLength).tryMap fun digits =>
    match Numeral.unsigned? Numeral.maxUInt64 digits with
    | none => .error (.invalidLength digits)
    | some length => .ok length

def byteString : Reader Error Value := fun input =>
  match stringLength input with
  | .error e => .error e
  | .ok length =>
    match Reader.takeBehind length length.value with
    | none => .error (.stringTooLong length.value length.rest.length)
    | some content => .ok (content.withValue (.bytes content.value))

def keyOf (value : Value) : Except Error Bytes :=
  match value with
  | .bytes content => .ok content
  | _ => .error .keyNotString

/-- A value, nested so deep that `levels` levels are left to it and what it holds. The place of a byte
that starts no value is counted from the end of the input. -/
def value : (levels : Nat) → Reader Error Value
  | 0, _ => .error .tooDeep
  | _ + 1, [] => .error .endOfData
  | levels + 1, byte :: rest =>
    if byte = 'i'.toUInt8 then (integer rest).map Reading.behind
    else if byte = 'l'.toUInt8 then
      (((Reader.many terminator .unterminatedList (value levels)).map Value.list) rest).map
        Reading.behind
    else if byte = 'd'.toUInt8 then
      let entry := ((value levels).tryMap keyOf).andThen fun key => (value levels).map (key, ·)
      (((Reader.many terminator .unterminatedDictionary entry).map (.dict ∘ entriesOf)) rest).map
        Reading.behind
    else if (Numeral.digit? byte).isSome then byteString (byte :: rest)
    else .error (.unknownType byte (rest.length + 1))

/-- Turns a place counted from the end of data of `size` bytes into one counted from its start. -/
def Error.fromEnd (size : Nat) : Error → Error
  | .unknownType byte left => .unknownType byte (size - left)
  | e => e

def decode (data : Bytes) : Except Error (Value × Bytes) :=
  match value (maxDepth + 1) data with
  | .error e => .error (e.fromEnd data.length)
  | .ok reading => .ok (reading.value, reading.rest)

def decodeDict (data : Bytes) : Except Error (Value × Bytes) :=
  match decode data with
  | .error e => .error e
  | .ok (value, rest) => if value.asDict?.isSome then .ok (value, rest) else .error .notDictionary

end MetaExchange.Bencode
