import MetaExchange.Bencode.Decoder

/-!
Reading bencode where each place calls for a value of a certain type. Values are read as they come:
there is no limit to nesting, keys may come in any order, and what is not called for is skipped.

This reader is more generous than the one for messages in one place (a byte string may be written as a
list of its bytes) and tells other errors apart.
-/

namespace MetaExchange.Bencode.Typed

/-- How a value starts: a scalar is read at once, a container is only entered. -/
inductive Opening where
  | int (value : Int64)
  | bytes (content : Bytes)
  | list
  | dict
  deriving DecidableEq

def Opening.describe : Opening → String
  | .int value => s!"integer `{value.toInt}`"
  | .bytes _ => "byte array"
  | .list => "sequence"
  | .dict => "map"

inductive Error where
  | endOfStream
  | invalidCharacter (byte : UInt8)
  | numberNotText
  | invalidInteger (text : String)
  | invalidLength (text : String)
  | wrongType (found : Opening) (expected : String)
  | wrongValue (found : Opening) (expected : String)
  /-- A record that is written as a list has fewer fields than it needs. -/
  | tooFewFields (found : Nat) (expected : String)
  | duplicateField (name : String)
  | missingField (name : String)
  deriving DecidableEq

/-- The wording of an error. A byte that starts no value is shown as a character of Latin-1. -/
def Error.message : Error → String
  | .endOfStream => "End of stream"
  | .invalidCharacter byte => s!"Invalid character `{Char.ofNat byte.toNat}`"
  | .numberNotText => "Non UTF-8 integer encoding"
  | .invalidInteger text => s!"Can't parse `{text}` as integer"
  | .invalidLength text => s!"Can't parse `{text}` as string length"
  | .wrongType found expected => s!"Invalid Type: {found.describe} (expected: `{expected}`)"
  | .wrongValue found expected => s!"Invalid Value: {found.describe} (expected: `{expected}`)"
  | .tooFewFields found expected => s!"Invalid Length: {found} (expected: {expected})"
  | .duplicateField name => s!"Duplicate Field: `{name}`"
  | .missingField name => s!"Missing Field: `{name}`"

def Error.toFailure (error : Error) : Failure := .decode "Bencode error" error.message

def number {α : Type} (stop : UInt8) (parse : Bytes → Option α) (invalid : String → Error) :
    Reader Error α :=
  (Reader.upTo stop .endOfStream).tryMap fun digits =>
    match Utf8.decode? digits with
    | none => .error .numberNotText
    | some text =>
      match parse digits with
      | none => .error (invalid text)
      | some value => .ok value

def content : Reader Error Bytes := fun input =>
  match number ':'.toUInt8 (Numeral.unsigned? Numeral.maxUInt64) .invalidLength input with
  | .error e => .error e
  | .ok length =>
    match Reader.takeBehind length length.value with
    | none => .error .endOfStream
    | some content => .ok content

def opening : Reader Error Opening
  | [] => .error .endOfStream
  | byte :: rest =>
    if byte = 'i'.toUInt8 then
      (((number terminator Numeral.int64? .invalidInteger).map .int) rest).map Reading.behind
    else if byte = 'l'.toUInt8 then .ok ⟨.list, rest, Nat.lt_succ_self _⟩
    else if byte = 'd'.toUInt8 then .ok ⟨.dict, rest, Nat.lt_succ_self _⟩
    else if byte = terminator then .error .endOfStream
    else if (Numeral.digit? byte).isSome then (content.map .bytes) (byte :: rest)
    else .error (.invalidCharacter byte)

/-! ### Values of a type -/

def integer : Reader Error Int64 :=
  opening.tryMap fun
    | .int value => .ok value
    | other => .error (.wrongType other "i64")

def byte : Reader Error UInt8 :=
  opening.tryMap fun
    | .int value =>
      if 0 ≤ value.toInt ∧ value.toInt < 256 then .ok (UInt8.ofNat value.toInt.toNat)
      else .error (.wrongValue (.int value) "u8")
    | other => .error (.wrongType other "u8")

def items {α : Type} (item : Reader Error α) : Reader Error (List α) :=
  Reader.many terminator .endOfStream item

/-- A byte string, or a list of its bytes. -/
def byteArray : Reader Error Bytes :=
  opening.follow fun
    | .bytes content => .ok (.done content)
    | .list => .ok (.more (items byte))
    | other => .error (.wrongType other "byte array")

def sequence {α : Type} (item : Reader Error α) : Reader Error (List α) :=
  opening.follow fun
    | .list => .ok (.more (items item))
    | other => .error (.wrongType other "a sequence")

/-! ### Records -/

def key : Reader Error String :=
  opening.tryMap fun
    | .bytes content =>
      match Utf8.decode? content with
      | some name => .ok name
      | none => .error (.wrongValue (.bytes content) "utf-8 string")
    | other => .error (.wrongType other "bytes")

def fields {σ : Type} (field : String → σ → Reader Error σ) (start : σ) : Reader Error σ :=
  Reader.foldUntil terminator .endOfStream (fun found => key.andThen fun name => field name found)
    start

def once {α : Type} (name : String) (given : Option α) (value : Reader Error α) : Reader Error α :=
  if given.isSome then Reader.fail (.duplicateField name) else value

/-- A field of a record written as a list. Where the list should end, the field is absent; its end is
taken away, and the next field is looked for behind it. -/
def positional {α : Type} (value : Reader Error α) : Reader Error (Option α)
  | [] => .error .endOfStream
  | byte :: rest =>
    if byte = terminator then .ok ⟨none, rest, Nat.lt_succ_self _⟩
    else (value.map some) (byte :: rest)

/-! ### Values that are not called for -/

inductive Place where
  | item
  | entryKey
  | entryValue
  deriving DecidableEq

def Place.next : Place → Place
  | .item => .item
  | .entryKey => .entryValue
  | .entryValue => .entryKey

/-- The places to go on at, innermost first, behind the start of a value. -/
def Opening.enter (places : List Place) : Opening → List Place
  | .list => .item :: places
  | .dict => .entryKey :: places
  | .int _ | .bytes _ => places

/-- A value of any type. The containers that are open are kept as a list of places. -/
def skip : Reader Error Unit := fun input =>
  match opening input with
  | .error e => .error e
  | .ok reading => go input (reading.value.enter []) reading.rest reading.shorter
where
  go (input : Bytes) (places : List Place) (bytes : Bytes)
      (within : bytes.length < input.length) : Except Error (Reading Unit input) :=
    match places with
    | [] => .ok ⟨(), bytes, within⟩
    | place :: outer =>
      match bytes, within with
      | [], _ => .error .endOfStream
      | byte :: rest, within =>
        if byte = terminator ∧ place ≠ .entryValue then
          go input outer rest (Nat.lt_of_succ_lt within)
        else
          match opening (byte :: rest) with
          | .error e => .error e
          | .ok reading =>
            go input (reading.value.enter (place.next :: outer)) reading.rest
              (Nat.lt_trans reading.shorter within)
  termination_by bytes.length
  decreasing_by
    · exact Nat.lt_succ_self _
    · exact reading.shorter

def read {α : Type} (reader : Reader Error α) (data : Bytes) : Except Error α :=
  match reader data with
  | .error e => .error e
  | .ok reading => .ok reading.value

end MetaExchange.Bencode.Typed
