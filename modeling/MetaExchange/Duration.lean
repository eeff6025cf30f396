import MetaExchange.Decimal.Binary64

namespace MetaExchange

structure Duration where
  nanoseconds : Nat
  deriving DecidableEq

namespace Duration

open Decimal

def perSecond : Nat := 1000000000

def perMillisecond : Nat := 1000000

def perMicrosecond : Nat := 1000

def zero : Duration := ⟨0⟩

def ofSeconds (seconds : Nat) : Duration := ⟨seconds * perSecond⟩

def seconds (duration : Duration) : Nat := duration.nanoseconds / perSecond

def subsecond (duration : Duration) : Nat := duration.nanoseconds % perSecond

def milliseconds (duration : Duration) : Nat := duration.nanoseconds / perMillisecond

/-- Seconds rounded to the nearest nanosecond, to the even one of two. What is negative, too long for
64 bits of seconds, or no number counts as no time. -/
def ofBinary64 : Binary64 → Duration
  | .finite false mantissa exponent =>
    let (numerator, denominator) := Binary64.magnitude mantissa exponent
    if numerator < UInt64.size * denominator then
      ⟨roundHalfEven (numerator * perSecond) denominator⟩
    else zero
  | _ => zero

/-- A number below `10 ^ width` as the digits behind a point, without zeros at the end; no point
either, if nothing is left. -/
def fraction (width value : Nat) : String :=
  let digits := (padded width value).toList.reverse.dropWhile (· = '0')
  if digits.isEmpty then "" else "." ++ String.ofList digits.reverse

/-- A span in the largest unit of which there is one at least, with all its digits. -/
def describe (duration : Duration) : String :=
  let nanoseconds := duration.nanoseconds
  if perSecond ≤ nanoseconds then inUnit 9 "s"
  else if perMillisecond ≤ nanoseconds then inUnit 6 "ms"
  else if perMicrosecond ≤ nanoseconds then inUnit 3 "µs"
  else inUnit 0 "ns"
where
  inUnit (places : Nat) (unit : String) : String :=
    let size := Nat.pow 10 places
    toString (duration.nanoseconds / size) ++ fraction places (duration.nanoseconds % size) ++ unit

/-- A span in seconds, as a quotient. Whole seconds and the rest are rounded to numbers of the binary
format, and so is their sum. -/
def roundedSeconds (duration : Duration) : Nat × Nat :=
  match Binary64.ofRatio false duration.subsecond perSecond with
  | .finite _ mantissa exponent =>
    let (numerator, denominator) := Binary64.magnitude mantissa exponent
    let whole := Binary64.nearestWhole duration.seconds
    match Binary64.ofRatio false (whole * denominator + numerator) denominator with
    | .finite _ mantissa exponent => Binary64.magnitude mantissa exponent
    | _ => (0, 1)
  | _ => (0, 1)

def inSeconds (duration : Duration) : String :=
  let (numerator, denominator) := duration.roundedSeconds
  fixed 3 numerator denominator ++ "s"

end Duration

end MetaExchange
