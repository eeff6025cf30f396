import MetaExchange.Duration
import MetaExchange.Metadata
import MetaExchange.Text.Json

namespace MetaExchange

namespace Size

/-- A size in the first of the units, of `divisor` bytes each, that leaves less than 1024 of it; in the
last unit if none does. -/
def inUnits (size divisor : Nat) (unit : String) : (larger : List String) → String
  | [] => Decimal.fixed 2 size divisor ++ " " ++ unit
  | next :: larger =>
    if 1024 * divisor ≤ size then inUnits size (1024 * divisor) next larger
    else Decimal.fixed 2 size divisor ++ " " ++ unit

/-- A size in bytes, as text with two places. It is rounded to a number of the binary format first. -/
def describe (bytes : Nat) : String :=
  inUnits (Binary64.nearestWhole bytes) 1 "B" ["KB", "MB", "GB", "TB"]

end Size

namespace Metadata

def File.toJson (file : File) : Json.Document :=
  .object [("path", .array (file.path.map .text)), ("length", .number file.length)]

/-- The fields of the metadata as a document. The hashes of the pieces are left out. -/
def jsonFields (metadata : Metadata) : List (String × Json.Document) :=
  [("info_hash", .text (Hex.encode metadata.infoHash.toBytes)),
    ("name", .text metadata.name),
    ("length", metadata.length.elim .null .number),
    ("piece_length", metadata.pieceLength.elim .null .number),
    ("files", .array (metadata.files.map File.toJson))]

def toJson (metadata : Metadata) : Json.Document := .object metadata.jsonFields

end Metadata

structure Report where
  metadata : Metadata
  peer : String
  elapsed : Duration

namespace Report

def fileLine (file : Metadata.File) : String :=
  s!"    {file.displayPath} ({Size.describe file.length})"

def summaryLines (totalSize : Nat) (report : Report) : List String :=
  let metadata := report.metadata
  [s!"Metadata fetched from {report.peer} in {report.elapsed.inSeconds}",
    s!"  Name: {metadata.name}",
    s!"  Info hash: {Hex.encode metadata.infoHash.toBytes}",
    s!"  Size: {totalSize} ({Size.describe totalSize})"] ++
  (match metadata.pieceLength with
    | none => []
    | some length => [s!"  Pieces: {metadata.pieceCount} x {Size.describe length}"]) ++
  (if metadata.isMultiFile then
    s!"  Files ({metadata.fileCount}):" :: metadata.allFiles.map fileLine
  else [])

def summary? (quiet : Bool) (report : Report) : Option String := do
  let lines ← if quiet then pure [report.metadata.name]
    else report.metadata.totalSize?.map report.summaryLines
  return String.join (lines.map (· ++ "\n"))

def toJson (totalSize : Nat) (report : Report) : Json.Document :=
  .object ([("peer", .text report.peer),
    ("elapsed_ms", .number report.elapsed.milliseconds),
    ("total_size", .number totalSize),
    ("piece_count", .number report.metadata.pieceCount)] ++ report.metadata.jsonFields)

def json? (report : Report) : Option String :=
  report.metadata.totalSize?.map fun totalSize => (report.toJson totalSize).pretty 0 ++ "\n"

/-- The text of a report. There is none if it tells a total size that does not fit 64 bits. -/
def render? (asJson quiet : Bool) (report : Report) : Option String :=
  if asJson then report.json? else report.summary? quiet

/-- Writes a text to where there is room for so many bytes: all of it, or as much as fits. -/
def written (room : Nat) (text : String) : Except Bytes Unit :=
  let bytes := Bytes.ofString text
  if bytes.length ≤ room then .ok () else .error (bytes.take room)

end Report

end MetaExchange
