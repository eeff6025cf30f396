import MetaExchange.Text.CharLiteral

namespace MetaExchange.Address

structure IPv4 where
  a : UInt8
  b : UInt8
  c : UInt8
  d : UInt8
  deriving DecidableEq

def IPv4.render (host : IPv4) : String :=
  ".".intercalate ([host.a, host.b, host.c, host.d].map fun octet => toString octet.toNat)

def IPv4.ofNat (value : Nat) : IPv4 :=
  ⟨UInt8.ofNat (value >>> 24), UInt8.ofNat (value >>> 16), UInt8.ofNat (value >>> 8),
    UInt8.ofNat value⟩

structure IPv6 where
  groups : List UInt16
  length_groups : groups.length = 8
  deriving DecidableEq

namespace IPv6

def ofGroups? (groups : List UInt16) : Option IPv6 :=
  if eight : groups.length = 8 then some ⟨groups, eight⟩ else none

def leadingZeros (groups : List UInt16) : Nat := (groups.takeWhile (· = 0)).length

/-- Where the longest run of zeros starts, and how long it is; the first of several. -/
def longestZeros (groups : List UInt16) : Nat × Nat :=
  (List.range groups.length).foldl (fun best start =>
    let length := leadingZeros (groups.drop start)
    if best.2 < length then (start, length) else best) (0, 0)

def renderGroups (groups : List UInt16) : String :=
  ":".intercalate (groups.map fun group => Text.hexDigits group.toNat)

/-- The host of the fourth version that a host stands for. -/
def mapped? (host : IPv6) : Option IPv4 :=
  if host.groups.take 6 = [0, 0, 0, 0, 0, 0xffff] then
    match host.groups.drop 6 with
    | [high, low] => some (IPv4.ofNat (high.toNat * UInt16.size + low.toNat))
    | _ => none
  else none

/-- A host as text. A single zero is not left out. -/
def render (host : IPv6) : String :=
  match host.mapped? with
  | some short => "::ffff:" ++ short.render
  | none =>
    let (start, length) := longestZeros host.groups
    if 2 ≤ length then
      renderGroups (host.groups.take start) ++ "::" ++
        renderGroups (host.groups.drop (start + length))
    else renderGroups host.groups

end IPv6

inductive Socket where
  | v4 (host : IPv4) (port : UInt16)
  /-- The scope says which network a host is on that is not known by its address alone. -/
  | v6 (host : IPv6) (scope : UInt32) (port : UInt16)
  deriving DecidableEq

/-- An address as text. A scope of zero is none. -/
def Socket.render : Socket → String
  | .v4 host port => s!"{host.render}:{port.toNat}"
  | .v6 host scope port =>
    let shown := if scope = 0 then "" else s!"%{scope.toNat}"
    s!"[{host.render}{shown}]:{port.toNat}"

end MetaExchange.Address
