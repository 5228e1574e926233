import ComponentAtlas.Json.Value
import ComponentAtlas.Number.Shortest

/-!
# Writing JSON

The compact text has no blanks; the indented text puts each item of a filled array or object on
a line of its own, two blanks deeper. Quotes, backslashes and control characters of a string are
escaped, every other character stands for itself.
-/

namespace ComponentAtlas.Json

/-- The digit of a value below sixteen. -/
def hexChar (n : Nat) : Char :=
  if n < 10 then Char.ofNat ('0'.toNat + n) else Char.ofNat ('a'.toNat + (n - 10))

/-- The written form of a character of a string. -/
def escapeChar (c : Char) : List Char :=
  if c = '"' then ['\\', '"']
  else if c = '\\' then ['\\', '\\']
  else if c = '\n' then ['\\', 'n']
  else if c = '\r' then ['\\', 'r']
  else if c = '\t' then ['\\', 't']
  else if c = '\x08' then ['\\', 'b']
  else if c = '\x0c' then ['\\', 'f']
  else if c.toNat < 0x20 then ['\\', 'u', '0', '0', hexChar (c.toNat / 16), hexChar (c.toNat % 16)]
  else [c]

/-- The written form of the characters of a string. -/
def escape (characters : List Char) : List Char :=
  characters.flatMap escapeChar

/-- A string in quotes. -/
def quote (s : String) : String :=
  "\"" ++ String.ofList (escape s.toList) ++ "\""

/-- The text of a number. -/
def Number.render : Number → String
  | .natural n => toString n
  | .negative n => "-" ++ toString n
  | .binary x => x.render

namespace Value

mutual

/-- The text without blanks. -/
def compact : Value → String
  | .null => "null"
  | .bool b => if b then "true" else "false"
  | .number n => n.render
  | .string s => quote s
  | .array items => "[" ++ compactItems items ++ "]"
  | .object fields => "\x7b" ++ compactFields fields ++ "\x7d"

/-- Items separated by commas. -/
def compactItems : List Value → String
  | [] => ""
  | [item] => item.compact
  | item :: items => item.compact ++ "," ++ compactItems items

/-- Fields separated by commas. -/
def compactFields : List (String × Value) → String
  | [] => ""
  | [(key, value)] => quote key ++ ":" ++ value.compact
  | (key, value) :: fields => quote key ++ ":" ++ value.compact ++ "," ++ compactFields fields

end

/-- A line break and the blanks of a nesting depth. -/
def newline (depth : Nat) : String :=
  "\n" ++ String.ofList (List.replicate (2 * depth) ' ')

mutual

/-- The indented text at a nesting depth. -/
def indented (depth : Nat) : Value → String
  | .null => "null"
  | .bool b => if b then "true" else "false"
  | .number n => n.render
  | .string s => quote s
  | .array [] => "[]"
  | .array (item :: items) =>
      "[" ++ indentedItems (depth + 1) (item :: items) ++ newline depth ++ "]"
  | .object [] => "\x7b\x7d"
  | .object (field :: fields) =>
      "\x7b" ++ indentedFields (depth + 1) (field :: fields) ++ newline depth ++ "\x7d"

/-- Items on lines of their own. -/
def indentedItems (depth : Nat) : List Value → String
  | [] => ""
  | [item] => newline depth ++ item.indented depth
  | item :: items => newline depth ++ item.indented depth ++ "," ++ indentedItems depth items

/-- Fields on lines of their own. -/
def indentedFields (depth : Nat) : List (String × Value) → String
  | [] => ""
  | [(key, value)] => newline depth ++ quote key ++ ": " ++ value.indented depth
  | (key, value) :: fields =>
      newline depth ++ quote key ++ ": " ++ value.indented depth ++ "," ++
        indentedFields depth fields

end

/-- The indented text. -/
def pretty (value : Value) : String :=
  value.indented 0

end Value

end ComponentAtlas.Json
