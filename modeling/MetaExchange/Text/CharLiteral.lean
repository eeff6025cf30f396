namespace MetaExchange.Text

def hexDigits (value : Nat) : String := String.ofList (Nat.toDigits 16 value)

/-- Characters up to U+00FF that stand for themselves: neither control characters, nor the no-break
space, nor the soft hyphen. -/
def isPrintableLatin (c : Char) : Bool :=
  (0x20 ≤ c.toNat && c.toNat < 0x7f) || (0xa1 ≤ c.toNat && c.toNat ≠ 0xad)

/-- A character between single quotes. The quote and the backslash are escaped, some control
characters have names, and the others that do not print are given by number. -/
def charLiteral (c : Char) : String :=
  let body :=
    if c = Char.ofNat 0 then "\\0"
    else if c = '\t' then "\\t"
    else if c = '\n' then "\\n"
    else if c = '\r' then "\\r"
    else if c = '\'' then "\\'"
    else if c = '\\' then "\\\\"
    else if isPrintableLatin c then c.toString
    else "\\u\x7b" ++ hexDigits c.toNat ++ "\x7d"
  "'" ++ body ++ "'"

end MetaExchange.Text
