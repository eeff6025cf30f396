namespace MetaExchange.Piece

def fullSize : Nat := 16384

def maxMetadataSize : Nat := 1048576

def count (metadataSize : Nat) : Nat := (metadataSize + (fullSize - 1)) / fullSize

/-- The size of a piece, which is zero behind the last. -/
def sizeAt (metadataSize index : Nat) : Nat := min (metadataSize - index * fullSize) fullSize

/-- The size of a piece, where the place at which it starts fits 64 bits. -/
def sizeAt? (metadataSize index : Nat) : Option Nat :=
  if index * fullSize < UInt64.size then some (sizeAt metadataSize index) else none

end MetaExchange.Piece
