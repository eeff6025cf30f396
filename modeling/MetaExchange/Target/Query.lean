import MetaExchange.Bytes.Hex
import MetaExchange.Text.Utf8

/-!
The query of a link, read as a form: pairs of a name and a value, joined by `&`. Inside a pair `=`
separates the two, `+` stands for a space, and `%` with two hexadecimal digits stands for a byte.
-/

namespace MetaExchange.Query

def pieces (separator : UInt8) (bytes : Bytes) : List Bytes :=
  bytes.foldr (fun byte found =>
    if byte = separator then [] :: found
    else
      match found with
      | [] => [[byte]]
      | piece :: others => (byte :: piece) :: others) [[]]

/-- Puts in the bytes that are written by their digits. A `%` without two digits stands for itself. -/
def unescape : Bytes → Bytes
  | mark :: high :: low :: rest =>
    if mark = '%'.toUInt8 then
      match Hex.value? high, Hex.value? low with
      | some h, some l => UInt8.ofNat (h * 16 + l) :: unescape rest
      | _, _ => mark :: unescape (high :: low :: rest)
    else mark :: unescape (high :: low :: rest)
  | rest => rest

def component (bytes : Bytes) : String :=
  Utf8.lossy (unescape (bytes.map fun byte => if byte = '+'.toUInt8 then ' '.toUInt8 else byte))

/-- The pair that a piece writes: the first `=` separates its parts. -/
def pair (piece : Bytes) : String × String :=
  let (name, rest) := piece.span (· ≠ '='.toUInt8)
  (component name, component (rest.drop 1))

def pairs (query : Bytes) : List (String × String) :=
  ((pieces '&'.toUInt8 query).filter (!·.isEmpty)).map pair

end MetaExchange.Query
