import MetaExchange.Bytes.Basic

namespace MetaExchange.BigEndian

/-- The `width` low bytes of `value`, most significant first. -/
def encode (width value : Nat) : Bytes :=
  (List.range width).map fun lane => UInt8.ofNat (value >>> (8 * (width - 1 - lane)))

def decode (bytes : Bytes) : Nat :=
  bytes.foldl (fun value byte => value * 256 + byte.toNat) 0

@[simp] theorem length_encode (width value : Nat) : (encode width value).length = width := by
  simp [encode]

def encode32 (value : Nat) : Bytes := encode 4 value

def decode32? (bytes : Bytes) : Option Nat :=
  if bytes.length = 4 then some (decode bytes) else none

end MetaExchange.BigEndian
