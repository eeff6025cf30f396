import MetaExchange.Text.CharLiteral

namespace MetaExchange.Json

inductive Document where
  | null
  | number (value : Nat)
  | text (value : String)
  | array (items : List Document)
  | object (fields : List (String × Document))

/-- A character inside a string: quotes, backslashes and control characters are escaped. -/
def escape (c : Char) : List Char :=
  if c = '"' then ['\\', '"']
  else if c = '\\' then ['\\', '\\']
  else if c.toNat = 0x08 then ['\\', 'b']
  else if c = '\t' then ['\\', 't']
  else if c = '\n' then ['\\', 'n']
  else if c.toNat = 0x0c then ['\\', 'f']
  else if c = '\r' then ['\\', 'r']
  else if c.toNat < 0x20 then
    ['\\', 'u', '0', '0', Nat.digitChar (c.toNat / 16), Nat.digitChar (c.toNat % 16)]
  else [c]

def quoted (text : String) : String :=
  "\"" ++ String.ofList (text.toList.flatMap escape) ++ "\""

namespace Document

theorem sizeOf_field_lt {field : String × Document} {fields : List (String × Document)}
    (member : field ∈ fields) : sizeOf field.2 < sizeOf (Document.object fields) := by
  have inList := List.sizeOf_lt_of_mem member
  have inPair : sizeOf field = 1 + sizeOf field.1 + sizeOf field.2 := rfl
  simp only [object.sizeOf_spec]
  omega

def compact (document : Document) : String :=
  match document with
  | .null => "null"
  | .number value => toString value
  | .text value => quoted value
  | .array items => "[" ++ ",".intercalate (items.map compact) ++ "]"
  | .object fields =>
    "\x7b" ++ ",".intercalate (fields.map fun field => quoted field.1 ++ ":" ++ field.2.compact) ++
      "\x7d"
termination_by document
decreasing_by
  · decreasing_tactic
  · exact sizeOf_field_lt ‹_›

/-- What stands between brackets, each part on a line of its own; nothing if there are no parts. -/
def block (depth : Nat) (parts : List String) : String :=
  if parts.isEmpty then ""
  else
    let newline (depth : Nat) := "\n" ++ String.ofList (List.replicate (2 * depth) ' ')
    newline (depth + 1) ++ ("," ++ newline (depth + 1)).intercalate parts ++ newline depth

def pretty (depth : Nat) (document : Document) : String :=
  match document with
  | .null => "null"
  | .number value => toString value
  | .text value => quoted value
  | .array items => "[" ++ block depth (items.map fun item => item.pretty (depth + 1)) ++ "]"
  | .object fields =>
    "\x7b" ++
      block depth (fields.map fun field => quoted field.1 ++ ": " ++ field.2.pretty (depth + 1)) ++
      "\x7d"
termination_by document
decreasing_by
  · decreasing_tactic
  · exact sizeOf_field_lt ‹_›

end Document

end MetaExchange.Json
