import ComponentAtlas.Json.Printer
import ComponentAtlas.Json.Reader

/-!
# Reports on the shape of values

A document can be well formed and still not have the shape that a reader asks for. The report
names the value that was found and what was expected, and gives the place of the value.
-/

namespace ComponentAtlas.Json

/-- The form of a character in a quoted report. -/
def reportChar (c : Char) : List Char :=
  if c = '"' then ['\\', '"']
  else if c = '\\' then ['\\', '\\']
  else if c = '\n' then ['\\', 'n']
  else if c = '\r' then ['\\', 'r']
  else if c = '\t' then ['\\', 't']
  else if c.toNat = 0 then ['\\', '0']
  else if c.toNat < 0x20 ∨ c.toNat = 0x7f then
    ['\\', 'u', '{'] ++ Nat.toDigits 16 c.toNat ++ ['}']
  else [c]

namespace Located

/-- The offset that a report on a value gives. -/
def place : Located → Nat
  | .null p => p
  | .bool p _ => p
  | .number p _ => p
  | .string p _ => p
  | .array p _ _ => p
  | .object p _ _ => p

/-- How a report names a value. -/
def description : Located → String
  | .null _ => "null"
  | .bool _ b => "boolean `" ++ (if b then "true" else "false") ++ "`"
  | .number _ (.binary x) => "floating point `" ++ x.render ++ "`"
  | .number _ n => "integer `" ++ n.render ++ "`"
  | .string _ s => "string \"" ++ String.ofList (s.toList.flatMap reportChar) ++ "\""
  | .array .. => "sequence"
  | .object .. => "map"

/-- The report that a value is not what was expected. -/
def mismatch {α : Type} (v : Located) (expected : String) : Except ReadError α :=
  .error ⟨.shape ("invalid type: " ++ v.description ++ ", expected " ++ expected), v.place⟩

/-- The text of a value that has to be a string. -/
def asString : Located → Except ReadError String
  | .string _ s => .ok s
  | v => v.mismatch "a string"

/-- The items of a value that has to be an array. -/
def asItems {α : Type} (decode : Located → Except ReadError α) :
    Located → Except ReadError (List α)
  | .array _ _ items => items.mapM decode
  | v => v.mismatch "a sequence"

/-- The value of a key that may stand only once. -/
def field? {α : Type} (key : String) (decode : Located → Except ReadError α) :
    Option α → List (String × Nat × Located) → Except ReadError (Option α)
  | found, [] => .ok found
  | found, (k, colon, v) :: rest =>
      if k = key then
        if found.isSome then .error ⟨.shape ("duplicate field `" ++ key ++ "`"), colon⟩
        else do
          let a ← decode v
          field? key decode (some a) rest
      else field? key decode found rest

end Located

end ComponentAtlas.Json
