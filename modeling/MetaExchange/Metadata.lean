import MetaExchange.InfoDict

/-!
The metadata that a fetch results in: an info dictionary whose numbers are sizes and whose names are
text. It describes one file, named like the whole, or a list of files.

Lines for the log are left out everywhere but here: only the line about metadata that were read works out
something that may fail.
-/

namespace MetaExchange

namespace Metadata

structure File where
  path : List String
  length : Nat
  deriving DecidableEq

def File.displayPath (file : File) : String := "/".intercalate file.path

end Metadata

structure Metadata where
  infoHash : InfoHash
  name : String
  length : Option Nat
  pieceLength : Option Nat
  files : List Metadata.File
  /-- The hashes of the pieces of the content, one after the other. -/
  pieces : Bytes
  deriving DecidableEq

namespace Metadata

inductive Error where
  | malformed (cause : Bencode.Typed.Error)
  | negativeLength (value : Int64)
  | negativePieceLength (value : Int64)
  | negativeFileLength (value : Int64)
  | nothingDescribed
  deriving DecidableEq

def Error.toFailure : Error → Failure
  | .malformed cause => .decode "Failed to decode metadata" cause.message
  | .negativeLength value =>
    .metadata "Negative length in info dictionary" (toString value.toInt)
  | .negativePieceLength value =>
    .metadata "Negative piece length in info dictionary" (toString value.toInt)
  | .negativeFileLength value =>
    .metadata "Negative file length in info dictionary" (toString value.toInt)
  | .nothingDescribed => .metadata "Neither length nor files found in info dictionary" none

def size (negative : Int64 → Error) (value : Int64) : Except Error Nat :=
  if value.toInt < 0 then .error (negative value) else .ok value.toInt.toNat

def size? (negative : Int64 → Error) : Option Int64 → Except Error (Option Nat)
  | none => .ok none
  | some value => (size negative value).map some

def fileOf (entry : InfoDict.Entry) : Except Error File :=
  (size .negativeFileLength entry.length).map fun length => ⟨entry.path.map Utf8.lossy, length⟩

def ofInfo (infoHash : InfoHash) (info : InfoDict) : Except Error Metadata := do
  let length ← size? .negativeLength info.length
  let pieceLength ← size? .negativePieceLength info.pieceLength
  let files ← (info.files.getD []).mapM fileOf
  if length.isNone && files.isEmpty then .error .nothingDescribed
  else .ok ⟨infoHash, Utf8.lossy info.name, length, pieceLength, files, info.pieces.getD []⟩

def ofBytes (infoHash : InfoHash) (data : Bytes) : Except Error Metadata :=
  match InfoDict.decode data with
  | .error cause => .error (.malformed cause)
  | .ok info => ofInfo infoHash info

/-- Whether a list of files is described. A length of the whole goes before such a list. -/
def isMultiFile (metadata : Metadata) : Bool := metadata.length.isNone

def allFiles (metadata : Metadata) : List File :=
  match metadata.length with
  | some length => [⟨[metadata.name], length⟩]
  | none => metadata.files

def fileCount (metadata : Metadata) : Nat :=
  if metadata.isMultiFile then metadata.files.length else 1

/-- The size of all files, as it is added up in 64 bits: nothing if a sum on the way does not fit. -/
def totalSize? (metadata : Metadata) : Option Nat :=
  match metadata.length with
  | some length => word? length
  | none => metadata.files.foldlM (fun total file => word? (total + file.length)) 0

def pieceCount (metadata : Metadata) : Nat := metadata.pieces.length / 20

/-- What is left of metadata behind the line that tells of them in the log. The line names their total size,
so that nothing is left where it is written and the sum leaves 64 bits. -/
def logged? (wanted : Bool) (metadata : Metadata) : Option Metadata :=
  -- A line that is not wanted is not worked out either.
  if wanted then metadata.totalSize?.map fun _ => metadata else some metadata

def ofBytes? (logged : Bool) (infoHash : InfoHash) (data : Bytes) : Option (Except Error Metadata) :=
  match ofBytes infoHash data with
  | .error cause => some (.error cause)
  | .ok metadata => (metadata.logged? logged).map .ok

end Metadata

end MetaExchange
