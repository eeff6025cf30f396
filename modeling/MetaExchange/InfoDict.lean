import MetaExchange.Bencode.Typed

/-!
The info dictionary as it is written: numbers may still be negative, and names are bytes. A record is
a dictionary, in which fields come in any order, or a list, in which they come in the order of the
structure.
-/

namespace MetaExchange

open Bencode.Typed

namespace InfoDict

structure Entry where
  length : Int64
  path : List Bytes
  deriving DecidableEq

namespace Entry

structure Draft where
  length : Option Int64
  path : Option (List Bytes)

def field (name : String) (draft : Draft) : Reader Error Draft :=
  match name with
  | "length" => (once name draft.length integer).map ({ draft with length := some · })
  | "path" => (once name draft.path (sequence byteArray)).map ({ draft with path := some · })
  | _ => skip.map fun _ => draft

def ofDraft (draft : Draft) : Except Error Entry :=
  match draft.length with
  | none => .error (.missingField "length")
  | some length =>
    match draft.path with
    | none => .error (.missingField "path")
    | some path => .ok ⟨length, path⟩

def expected : String := "struct RawFile with 2 elements"

def ofItems : Reader Error Entry :=
  (positional integer).andThen fun
    | none => Reader.fail (.tooFewFields 0 expected)
    | some length => (positional (sequence byteArray)).tryMap fun
      | none => .error (.tooFewFields 1 expected)
      | some path => .ok ⟨length, path⟩

def reader : Reader Error Entry :=
  opening.follow fun
    | .dict => .ok (.more ((fields field ⟨none, none⟩).tryMap ofDraft))
    | .list => .ok (.more ofItems)
    | other => .error (.wrongType other "struct RawFile")

end Entry

end InfoDict

structure InfoDict where
  name : Bytes
  length : Option Int64
  files : Option (List InfoDict.Entry)
  pieceLength : Option Int64
  pieces : Option Bytes
  deriving DecidableEq

namespace InfoDict

structure Draft where
  name : Option Bytes
  length : Option Int64
  files : Option (List Entry)
  pieceLength : Option Int64
  pieces : Option Bytes

def Draft.empty : Draft := ⟨none, none, none, none, none⟩

def field (name : String) (draft : Draft) : Reader Error Draft :=
  match name with
  | "name" => (once name draft.name byteArray).map ({ draft with name := some · })
  | "length" => (once name draft.length integer).map ({ draft with length := some · })
  | "files" => (once name draft.files (sequence Entry.reader)).map ({ draft with files := some · })
  | "piece length" =>
    (once name draft.pieceLength integer).map ({ draft with pieceLength := some · })
  | "pieces" => (once name draft.pieces byteArray).map ({ draft with pieces := some · })
  | _ => skip.map fun _ => draft

/-- The dictionary made of the fields given. Only the name has to be there. -/
def ofDraft (draft : Draft) : Except Error InfoDict :=
  match draft.name with
  | none => .error (.missingField "name")
  | some name => .ok ⟨name, draft.length, draft.files, draft.pieceLength, draft.pieces⟩

def ofItems : Reader Error InfoDict :=
  (positional byteArray).andThen fun
    | none => Reader.fail (.tooFewFields 0 "struct RawInfo with 5 elements")
    | some name => (positional integer).andThen fun length =>
      (positional (sequence Entry.reader)).andThen fun files =>
        (positional integer).andThen fun pieceLength =>
          (positional byteArray).map fun pieces => ⟨name, length, files, pieceLength, pieces⟩

def reader : Reader Error InfoDict :=
  opening.follow fun
    | .dict => .ok (.more ((fields field .empty).tryMap ofDraft))
    | .list => .ok (.more ofItems)
    | other => .error (.wrongType other "struct RawInfo")

def decode (data : Bytes) : Except Error InfoDict := read reader data

end InfoDict

end MetaExchange
