import MetaExchange.Decimal.Binary64

namespace MetaExchange.Binary64

def digits (text : List Char) : List Char × List Char := text.span Char.isDigit

def valueOf (digits : List Char) : Nat :=
  digits.foldl (fun value digit => value * 10 + (digit.toNat - '0'.toNat)) 0

def sign : List Char → Bool × List Char
  | '-' :: rest => (true, rest)
  | '+' :: rest => (false, rest)
  | rest => (false, rest)

/-- The exponent of ten that ends a numeral, or zero where nothing is left to read. -/
def exponent? : List Char → Option Int
  | [] => some 0
  | mark :: rest =>
    if mark = 'e' ∨ mark = 'E' then
      let (negative, rest) := sign rest
      match digits rest with
      | ([], _) => none
      | (ds, []) => some (if negative then -(valueOf ds : Int) else valueOf ds)
      | _ => none
    else none

/-- The number `significand * 10 ^ exponent`, of a significand of `count` digits at most. What lies
beyond the range is told by its size, so that no power is larger than that. -/
def ofDecimal (negative : Bool) (significand count : Nat) (exponent : Int) : Binary64 :=
  if significand = 0 then .finite negative 0 minExponent
  else if exponent + count < -400 then .finite negative 0 minExponent
  else if 400 < exponent + significand.log2 / 4 then .infinite negative
  else if 0 ≤ exponent then ofRatio negative (significand * Nat.pow 10 exponent.toNat) 1
  else ofRatio negative significand (Nat.pow 10 (-exponent).toNat)

/-- A numeral without its sign. There must be a digit before the exponent. -/
def unsigned? (negative : Bool) (text : List Char) : Option Binary64 :=
  let (whole, rest) := digits text
  let (fraction, rest) :=
    match rest with
    | '.' :: rest => digits rest
    | rest => ([], rest)
  match whole ++ fraction with
  | [] => none
  | all =>
    (exponent? rest).map fun exponent =>
      ofDecimal negative (valueOf all) all.length (exponent - fraction.length)

/-- The number that a text writes. Words may be in either case. -/
def ofText? (text : String) : Option Binary64 :=
  let (negative, rest) := sign text.toList
  let word := String.ofList (rest.map Char.toLower)
  if word = "inf" ∨ word = "infinity" then some (.infinite negative)
  else if word = "nan" then some .nan
  else unsigned? negative rest

end MetaExchange.Binary64
