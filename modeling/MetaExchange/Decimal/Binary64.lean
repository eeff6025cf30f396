import MetaExchange.Decimal.Rounding

/-!
Numbers of the binary format with 64 bits: a mantissa of 53 bits, an exponent, and a sign. Each number
is exact here, and so is every sum and quotient before it is rounded.
-/

namespace MetaExchange

inductive Binary64 where
  /-- The number `mantissa * 2 ^ exponent`. The mantissa is below `2 ^ 53`; it is below `2 ^ 52` only
  where the exponent is the least, which is -1074. -/
  | finite (negative : Bool) (mantissa : Nat) (exponent : Int)
  | infinite (negative : Bool)
  | nan
  deriving DecidableEq

namespace Binary64

open Decimal

def leastFull : Nat := 4503599627370496

def minExponent : Int := -1074

def maxExponent : Int := 971

/-- The exponent at which a quotient has a mantissa of 53 bits, or the least exponent if that is
larger or the quotient is zero. -/
def exponentOf (numerator denominator : Nat) : Int :=
  if numerator = 0 then minExponent else
  let exponent : Int := numerator.log2 - denominator.log2 - 52
  let tooHigh :=
    if 0 ≤ exponent then numerator < leastFull * (denominator <<< exponent.toNat)
    else numerator <<< (-exponent).toNat < leastFull * denominator
  max minExponent (if tooHigh then exponent - 1 else exponent)

/-- A mantissa that rounding may have lifted to `2 ^ 53`, at its exponent. -/
def ofMantissa (negative : Bool) (mantissa : Nat) (exponent : Int) : Binary64 :=
  let (mantissa, exponent) :=
    if mantissa = 2 * leastFull then (leastFull, exponent + 1) else (mantissa, exponent)
  if maxExponent < exponent then .infinite negative else .finite negative mantissa exponent

/-- The number nearest to a quotient; of two equally near, the one with an even mantissa. -/
def ofRatio (negative : Bool) (numerator denominator : Nat) : Binary64 :=
  let exponent := exponentOf numerator denominator
  let mantissa :=
    if 0 ≤ exponent then roundHalfEven numerator (denominator <<< exponent.toNat)
    else roundHalfEven (numerator <<< (-exponent).toNat) denominator
  ofMantissa negative mantissa exponent

def magnitude (mantissa : Nat) (exponent : Int) : Nat × Nat :=
  if 0 ≤ exponent then (mantissa <<< exponent.toNat, 1) else (mantissa, 1 <<< (-exponent).toNat)

/-- The 64 bits that stand for a number; nothing for what is no number, which has many. -/
def toBits? : Binary64 → Option Nat
  | .finite negative mantissa exponent =>
    some (signBit negative + (exponent - minExponent).toNat * leastFull + mantissa)
  | .infinite negative => some (signBit negative + 0x7ff * leastFull)
  | .nan => none
where
  signBit (negative : Bool) : Nat := if negative then UInt64.size / 2 else 0

/-- The number of the format nearest to a whole number, which is a whole number too. -/
def nearestWhole (value : Nat) : Nat :=
  let unit := 1 <<< (value.log2 - 52)
  roundHalfEven value unit * unit

end Binary64

end MetaExchange
