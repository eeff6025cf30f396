import MetaExchange.Address.Basic
import MetaExchange.Failure

namespace MetaExchange.Address

abbrev Scan (α : Type) := List Char → Option (α × List Char)

namespace Scan

def digit? (radix : Nat) (c : Char) : Option Nat :=
  let value :=
    if c.isDigit then c.toNat - '0'.toNat
    else if 'a' ≤ c ∧ c ≤ 'f' then c.toNat - 'a'.toNat + 10
    else if 'A' ≤ c ∧ c ≤ 'F' then c.toNat - 'A'.toNat + 10
    else radix
  if value < radix then some value else none

def valueOf (radix : Nat) (digits : List Char) : Nat :=
  digits.foldl (fun value c => value * radix + (digit? radix c).getD 0) 0

def digits (radix : Nat) : Scan (List Char) := fun text =>
  let (found, rest) := text.span fun c => (digit? radix c).isSome
  if found.isEmpty then none else some (found, rest)

def number (radix limit : Nat) : Scan Nat := fun text => do
  let (found, rest) ← digits radix text
  let value := valueOf radix found
  if value ≤ limit then some (value, rest) else none

def character (c : Char) : Scan Unit
  | [] => none
  | first :: rest => if first = c then some ((), rest) else none

/-- A number between dots: up to three digits, and no zero in front of others. -/
def octet : Scan UInt8 := fun text => do
  let (found, rest) ← digits 10 text
  let value := valueOf 10 found
  if found.length ≤ 3 ∧ (found.head? = some '0' → found.length = 1) ∧ value < 256 then
    some (UInt8.ofNat value, rest)
  else none

def nextOctet : Scan UInt8 := fun text => do
  let (_, rest) ← character '.' text
  octet rest

def ipv4 : Scan IPv4 := fun text => do
  let (a, rest) ← octet text
  let (b, rest) ← nextOctet rest
  let (c, rest) ← nextOctet rest
  let (d, rest) ← nextOctet rest
  some (⟨a, b, c, d⟩, rest)

def group : Scan UInt16 := fun text => do
  let (found, rest) ← digits 16 text
  if found.length ≤ 4 then some (UInt16.ofNat (valueOf 16 found), rest) else none

def groupsOf (host : IPv4) : List UInt16 :=
  [UInt16.ofNat (host.a.toNat * 256 + host.b.toNat), UInt16.ofNat (host.c.toNat * 256 + host.d.toNat)]

/-- What a run of groups gives: the groups, whether a host of the fourth version ended it, and what
follows. -/
structure Groups where
  found : List UInt16
  endsInIPv4 : Bool
  rest : List Char

/-- Reads groups between colons into so many places, as far as it goes. -/
def groups : (places : Nat) → (isFirst : Bool) → List Char → Groups
  | 0, _, text => ⟨[], false, text⟩
  | places + 1, isFirst, text =>
    let start := if isFirst then some text else (character ':' text).map (·.2)
    match if 1 ≤ places then start.bind ipv4 else none with
    | some (host, rest) => ⟨groupsOf host, true, rest⟩
    | none =>
      match start.bind group with
      | none => ⟨[], false, text⟩
      | some (first, rest) =>
        let more := groups places false rest
        { more with found := first :: more.found }

def ipv6 : Scan IPv6 := fun text =>
  let front := groups 8 true text
  match IPv6.ofGroups? front.found with
  | some host => some (host, front.rest)
  | none =>
    if front.endsInIPv4 then none
    else do
      let (_, rest) ← character ':' front.rest
      let (_, rest) ← character ':' rest
      let back := groups (7 - front.found.length) true rest
      let zeros := List.replicate (8 - front.found.length - back.found.length) 0
      let host ← IPv6.ofGroups? (front.found ++ zeros ++ back.found)
      some (host, back.rest)

def port : Scan UInt16 := fun text => do
  let (_, rest) ← character ':' text
  let (value, rest) ← number 10 (UInt16.size - 1) rest
  some (UInt16.ofNat value, rest)

/-- A scope behind a percent sign; none is zero. -/
def scope (text : List Char) : UInt32 × List Char :=
  match (character '%' text).bind fun (_, rest) => number 10 (UInt32.size - 1) rest with
  | some (value, rest) => (UInt32.ofNat value, rest)
  | none => (0, text)

def socketV4 : Scan Socket := fun text => do
  let (host, rest) ← ipv4 text
  let (port, rest) ← port rest
  some (.v4 host port, rest)

def socketV6 : Scan Socket := fun text => do
  let (_, rest) ← character '[' text
  let (host, rest) ← ipv6 rest
  let (scope, rest) := scope rest
  let (_, rest) ← character ']' rest
  let (port, rest) ← port rest
  some (.v6 host scope port, rest)

def whole {α : Type} (scan : Scan α) (text : String) : Option α :=
  match scan text.toList with
  | some (value, []) => some value
  | _ => none

end Scan

def Socket.ofText? : String → Option Socket :=
  Scan.whole fun text => (Scan.socketV4 text).or (Scan.socketV6 text)

def notAnAddress : Failure :=
  .validation "Failed to parse address: invalid socket address syntax" "peer"

end MetaExchange.Address
