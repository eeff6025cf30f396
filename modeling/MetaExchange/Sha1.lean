import MetaExchange.Bytes.BigEndian

/-!
The SHA-1 hash, by its standard: the message is padded to whole blocks of 64 bytes, and each block is
mixed into five 32-bit words, which are the hash in the end.
-/

namespace MetaExchange.Sha1

structure State where
  a : UInt32
  b : UInt32
  c : UInt32
  d : UInt32
  e : UInt32

namespace State

def initial : State := ⟨0x67452301, 0xefcdab89, 0x98badcfe, 0x10325476, 0xc3d2e1f0⟩

def add (s t : State) : State := ⟨s.a + t.a, s.b + t.b, s.c + t.c, s.d + t.d, s.e + t.e⟩

def toBytes (s : State) : FixedBytes 20 :=
  ⟨BigEndian.encode32 s.a.toNat ++ BigEndian.encode32 s.b.toNat ++ BigEndian.encode32 s.c.toNat ++
    BigEndian.encode32 s.d.toNat ++ BigEndian.encode32 s.e.toNat, by simp [BigEndian.encode32]⟩

end State

/-- Turns a word to the left by `count` bits, with `0 < count < 32`. -/
def rotateLeft (word count : UInt32) : UInt32 := (word <<< count) ||| (word >>> (32 - count))

def words : Bytes → List UInt32
  | a :: b :: c :: d :: rest => UInt32.ofNat (BigEndian.decode [a, b, c, d]) :: words rest
  | _ => []

/-- Puts `count` further words on a schedule, whose newest word stands first. Each is made of the four
that came 3, 8, 14 and 16 places before it. -/
def extend : (count : Nat) → List UInt32 → List UInt32
  | 0, schedule => schedule
  | count + 1, schedule =>
    let word := schedule.getD 2 0 ^^^ schedule.getD 7 0 ^^^ schedule.getD 13 0 ^^^ schedule.getD 15 0
    extend count (rotateLeft word 1 :: schedule)

def schedule (block : Bytes) : List UInt32 := (extend 64 (words block).reverse).reverse

/-- One round: the mixing function and the constant change every twenty rounds. -/
def round (s : State) (numbered : UInt32 × Nat) : State :=
  let (word, number) := numbered
  let (mixed, constant) : UInt32 × UInt32 :=
    if number < 20 then ((s.b &&& s.c) ||| (~~~ s.b &&& s.d), 0x5a827999)
    else if number < 40 then (s.b ^^^ s.c ^^^ s.d, 0x6ed9eba1)
    else if number < 60 then ((s.b &&& s.c) ||| (s.b &&& s.d) ||| (s.c &&& s.d), 0x8f1bbcdc)
    else (s.b ^^^ s.c ^^^ s.d, 0xca62c1d6)
  ⟨rotateLeft s.a 5 + mixed + s.e + constant + word, s.a, rotateLeft s.b 30, s.c, s.d⟩

def compress (s : State) (block : Bytes) : State :=
  ((schedule block).zipIdx.foldl round s).add s

def absorb (s : State) (bytes : Bytes) : State :=
  match _split : bytes.splitAt? 64 with
  | none => s
  | some (block, rest) => absorb (compress s block) rest
termination_by bytes.length
decreasing_by
  have := (Bytes.length_of_splitAt? _split).2
  omega

/-- The message behind which a one bit, zeros, and the length in bits complete the last block. -/
def padded (message : Bytes) : Bytes :=
  let length := message.length
  message ++ 0x80 :: List.replicate ((119 - length % 64) % 64) 0 ++ BigEndian.encode 8 (length * 8)

def digest (message : Bytes) : FixedBytes 20 := (absorb .initial (padded message)).toBytes

end MetaExchange.Sha1
