import MetaExchange.Bytes.Basic

/-!
Decimal numerals in ASCII. Reading is bounded: a numeral whose value leaves the range is refused at the
digit where it does, so that the work stays proportional to the digits.
-/

namespace MetaExchange.Numeral

def digit? (code : UInt8) : Option Nat :=
  if '0'.toUInt8 ≤ code ∧ code ≤ '9'.toUInt8 then some (code.toNat - '0'.toNat) else none

/-- Reads digits behind those that wrote `value`, within `limit`. -/
def extend (limit : Nat) : (value : Nat) → Bytes → Option Nat
  | value, [] => some value
  | value, code :: rest =>
    match digit? code with
    | none => none
    | some digit =>
      let value := value * 10 + digit
      if value ≤ limit then extend limit value rest else none

/-- A number of one digit or more, at most `limit`. Leading zeros do not count. -/
def natural? (limit : Nat) : Bytes → Option Nat
  | [] => none
  | digits => extend limit 0 digits

/-- A number at most `limit`, with or without a plus sign. -/
def unsigned? (limit : Nat) : Bytes → Option Nat
  | [] => none
  | code :: rest => natural? limit (if code = '+'.toUInt8 then rest else code :: rest)

def maxUInt64 : Nat := UInt64.size - 1

def int64? : Bytes → Option Int64
  | [] => none
  | code :: rest =>
    if code = '-'.toUInt8 then
      (natural? (UInt64.size / 2) rest).map fun magnitude => Int64.ofInt (-(magnitude : Int))
    else
      (unsigned? (UInt64.size / 2 - 1) (code :: rest)).map fun magnitude =>
        Int64.ofInt (magnitude : Int)

def ofNat (value : Nat) : Bytes :=
  if value < 10 then [UInt8.ofNat ('0'.toNat + value)]
  else ofNat (value / 10) ++ [UInt8.ofNat ('0'.toNat + value % 10)]
termination_by value
decreasing_by omega

def ofInt (value : Int) : Bytes :=
  if value < 0 then '-'.toUInt8 :: ofNat value.natAbs else ofNat value.natAbs

end MetaExchange.Numeral
