import MetaExchange.Failure
import MetaExchange.Target.Query
import MetaExchange.Text.Blank

namespace MetaExchange

structure Target where
  infoHash : InfoHash
  displayName : Option String
  deriving DecidableEq

namespace Target

inductive Error where
  | base32
  | invalidHex (cause : Hex.Error)
  | wrongSize (count : Nat)
  | hashMissing
  deriving DecidableEq

def Error.toFailure (error : Error) : Failure :=
  .validation (match error with
    | .base32 => "Base32-encoded info hashes are not supported, use the 40-character hex form"
    | .invalidHex cause => s!"Info hash is not valid hex: {cause.message}"
    | .wrongSize count => s!"Info hash has {count} bytes, expected 20"
    | .hashMissing => "Magnet link must contain an info hash (xt=urn:btih:<hash>)")
    "target"

def magnetStart : List Char := "magnet:?".toList

def hashScheme : List Char := "urn:btih:".toList

def after? (start text : List Char) : Option (List Char) :=
  if start.isPrefixOf text then some (text.drop start.length) else none

/-- Whether a text, blanks at its ends apart, is a magnet link. -/
def isMagnet (text : String) : Bool := (after? magnetStart (Text.trim text.toList)).isSome

/-- The info hash that digits write. Thirty-two bytes are taken for another notation. -/
def hashOf (digits : String) : Except Error InfoHash :=
  let bytes := Bytes.ofString digits
  if bytes.length = 32 then .error .base32
  else
    match Hex.decode bytes with
    | .error cause => .error (.invalidHex cause)
    | .ok hash =>
      match FixedBytes.ofBytes? 20 hash with
      | none => .error (.wrongSize hash.length)
      | some infoHash => .ok infoHash

/-- The query in what follows the start of a link: line breaks and tabs do not count, nor do control
characters and spaces at the end, and a fragment ends it. -/
def queryOf (text : List Char) : Bytes :=
  let kept := (Text.trimEnd (·.toNat ≤ 0x20) text).filter fun c =>
    c ≠ '\t' && c ≠ '\n' && c ≠ '\r'
  (kept.takeWhile (· ≠ '#')).flatMap String.utf8EncodeChar

structure Draft where
  infoHash : Option InfoHash
  displayName : Option String

/-- Takes one pair. Later pairs go before earlier ones; an info hash must be well formed all the
same. -/
def Draft.add (draft : Draft) (pair : String × String) : Except Error Draft :=
  match pair with
  | ("xt", value) =>
    match after? hashScheme value.toList with
    | none => .ok draft
    | some digits => (hashOf (String.ofList digits)).map ({ draft with infoHash := some · })
  | ("dn", value) => .ok { draft with displayName := some value }
  | _ => .ok draft

def ofPairs (pairs : List (String × String)) : Except Error Target := do
  let draft ← pairs.foldlM Draft.add ⟨none, none⟩
  match draft.infoHash with
  | none => throw .hashMissing
  | some infoHash => return ⟨infoHash, draft.displayName⟩

def parse (text : String) : Except Error Target :=
  let trimmed := Text.trim text.toList
  match after? magnetStart trimmed with
  | some rest => ofPairs (Query.pairs (queryOf rest))
  | none => (hashOf (String.ofList trimmed)).map (⟨·, none⟩)

end Target

end MetaExchange
