namespace MetaExchange.Decimal

/-- The whole number nearest to `numerator / denominator`, which must not have a zero below; halfway
cases go to the even neighbour. -/
def roundHalfEven (numerator denominator : Nat) : Nat :=
  let quotient := numerator / denominator
  let twice := 2 * (numerator % denominator)
  if twice < denominator then quotient
  else if denominator < twice then quotient + 1
  else quotient + quotient % 2

def padded (width value : Nat) : String :=
  let digits := toString value
  String.ofList (List.replicate (width - digits.length) '0') ++ digits

/-- A quotient with `places` digits behind the point, at least one. -/
def fixed (places numerator denominator : Nat) : String :=
  let unit := Nat.pow 10 places
  let scaled := roundHalfEven (numerator * unit) denominator
  toString (scaled / unit) ++ "." ++ padded places (scaled % unit)

end MetaExchange.Decimal
