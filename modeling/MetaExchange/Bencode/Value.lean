import MetaExchange.Text.Numeral

/-!
Bencode values and how they are written. A dictionary lists its entries by ascending key, each key
once, so that equal dictionaries are equal lists.
-/

namespace MetaExchange.Bencode

inductive Value where
  | int (value : Int64)
  | bytes (content : Bytes)
  | list (items : List Value)
  | dict (entries : List (Bytes × Value))

namespace Value

def asInt? : Value → Option Int64
  | .int value => some value
  | _ => none

def asBytes? : Value → Option Bytes
  | .bytes content => some content
  | _ => none

def asList? : Value → Option (List Value)
  | .list items => some items
  | _ => none

def asDict? : Value → Option (List (Bytes × Value))
  | .dict entries => some entries
  | _ => none

def get? (value : Value) (key : Bytes) : Option Value :=
  value.asDict?.bind fun entries => entries.lookup key

def getInt? (value : Value) (key : String) : Option Int64 :=
  (value.get? (Bytes.ofString key)).bind asInt?

end Value

/-- Puts in an entry that was written before those already there: where its key is taken, the later
entry stays. -/
def insertEarlier (key : Bytes) (value : Value) : List (Bytes × Value) → List (Bytes × Value)
  | [] => [(key, value)]
  | (other, held) :: rest =>
    if key < other then (key, value) :: (other, held) :: rest
    else if key = other then (other, held) :: rest
    else (other, held) :: insertEarlier key value rest

/-- The entries of a dictionary written in any order. Of entries with one key, the last counts. -/
def entriesOf (written : List (Bytes × Value)) : List (Bytes × Value) :=
  written.foldr (fun (key, value) entries => insertEarlier key value entries) []

def encodeBytes (content : Bytes) : Bytes :=
  Numeral.ofNat content.length ++ ':'.toUInt8 :: content

mutual

def Value.encode : Value → Bytes
  | .int value => 'i'.toUInt8 :: Numeral.ofInt value.toInt ++ ['e'.toUInt8]
  | .bytes content => encodeBytes content
  | .list items => 'l'.toUInt8 :: encodeItems items ++ ['e'.toUInt8]
  | .dict entries => 'd'.toUInt8 :: encodeEntries entries ++ ['e'.toUInt8]

def encodeItems : List Value → Bytes
  | [] => []
  | item :: rest => item.encode ++ encodeItems rest

def encodeEntries : List (Bytes × Value) → Bytes
  | [] => []
  | (key, value) :: rest => encodeBytes key ++ value.encode ++ encodeEntries rest

end

end MetaExchange.Bencode
