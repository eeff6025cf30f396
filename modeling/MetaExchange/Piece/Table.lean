import MetaExchange.Bytes.Basic
import MetaExchange.Failure
import MetaExchange.Piece.Geometry

namespace MetaExchange.Piece

structure Table where
  metadataSize : Nat
  slots : List (Option Bytes)
  /-- How many slots are filled. -/
  received : Nat
  deriving DecidableEq

namespace Table

inductive Error where
  | invalidSize (size : Nat)
  | indexOutOfRange (index count : Nat)
  | wrongLength (index expected actual : Nat)
  deriving DecidableEq

def Error.toFailure : Error → Failure
  | .invalidSize size =>
    .metadata "Invalid metadata size" s!"{size} bytes (limit {maxMetadataSize})"
  | .indexOutOfRange index count =>
    .metadata "Piece index out of range" s!"index {index} of {count}"
  | .wrongLength index expected actual =>
    .metadata "Metadata piece has wrong length"
      s!"piece {index}: expected {expected} bytes, got {actual}"

inductive Status where
  | filled
  | replaced
  deriving DecidableEq

def create? (metadataSize : Nat) : Except Error Table :=
  if metadataSize = 0 ∨ maxMetadataSize < metadataSize then .error (.invalidSize metadataSize)
  else .ok ⟨metadataSize, List.replicate (count metadataSize) none, 0⟩

def pieceCount (table : Table) : Nat := table.slots.length

def isComplete (table : Table) : Bool := table.received == table.pieceCount

/-- Stores a piece, if there is a slot for it and it has the right size. -/
def insert (table : Table) (index : Nat) (data : Bytes) : Except Error (Status × Table) :=
  match table.slots[index]? with
  | none => .error (.indexOutOfRange index table.pieceCount)
  | some held =>
    let expected := sizeAt table.metadataSize index
    let actual := data.length
    if actual = expected then
      let slots := table.slots.set index (some data)
      match held with
      | none => .ok (.filled, { table with slots, received := table.received + 1 })
      | some _ => .ok (.replaced, { table with slots })
    else .error (.wrongLength index expected actual)

def concatenation (table : Table) : Bytes := (table.slots.filterMap id).flatten

/-- The metadata, once every slot is filled. It must have the size that was asked for. -/
def assemble (table : Table) : Option Bytes :=
  if table.isComplete then
    let data := table.concatenation
    if data.length = table.metadataSize then some data else none
  else none

end Table

end MetaExchange.Piece
