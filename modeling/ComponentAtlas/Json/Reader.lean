import ComponentAtlas.Json.Value
import ComponentAtlas.Text.Position

/-!
# Reading JSON

A reader over the characters of a text. An error is a cause and the number of bytes read when it
was found; its message gives line and byte column. Arrays and objects may be nested to a fixed
depth. Each value that is read is located, so that a later check of its shape can report a place.
-/

namespace ComponentAtlas.Json

open ComponentAtlas.Text

/-- Why a text is no JSON document. -/
inductive Cause where
  | eofInList
  | eofInObject
  | eofInString
  | eofInValue
  | expectedColon
  | expectedListEnd
  | expectedObjectEnd
  | expectedIdent
  | expectedValue
  | invalidEscape
  | invalidNumber
  | numberOutOfRange
  | controlCharacter
  | keyNotString
  | loneSurrogate
  | unfinishedSurrogate
  | trailingComma
  | trailingCharacters
  | tooDeep
  | shape (message : String)
  deriving DecidableEq, Repr

/-- The wording of a cause. -/
def Cause.message : Cause → String
  | .eofInList => "EOF while parsing a list"
  | .eofInObject => "EOF while parsing an object"
  | .eofInString => "EOF while parsing a string"
  | .eofInValue => "EOF while parsing a value"
  | .expectedColon => "expected `:`"
  | .expectedListEnd => "expected `,` or `]`"
  | .expectedObjectEnd => "expected `,` or `\x7d`"
  | .expectedIdent => "expected ident"
  | .expectedValue => "expected value"
  | .invalidEscape => "invalid escape"
  | .invalidNumber => "invalid number"
  | .numberOutOfRange => "number out of range"
  | .controlCharacter => "control character (\\u0000-\\u001F) found while parsing a string"
  | .keyNotString => "key must be a string"
  | .loneSurrogate => "lone leading surrogate in hex escape"
  | .unfinishedSurrogate => "unexpected end of hex escape"
  | .trailingComma => "trailing comma"
  | .trailingCharacters => "trailing characters"
  | .tooDeep => "recursion limit exceeded"
  | .shape message => message

/-- A cause and the number of bytes in front of the place where it was found. -/
structure ReadError where
  cause : Cause
  offset : Nat
  deriving DecidableEq, Repr

/-- The message of an error in a text. -/
def ReadError.message (error : ReadError) (text : String) : String :=
  let (line, column) := lineAndColumn text.toList error.offset
  s!"{error.cause.message} at line {line} column {column}"

/-- The unread characters and the number of bytes read before them. -/
structure Cursor where
  rest : List Char
  offset : Nat

namespace Cursor

/-- The start of a text. -/
def start (text : String) : Cursor := ⟨text.toList, 0⟩

/-- An error at the bytes read so far. -/
def fail {α : Type} (c : Cursor) (cause : Cause) : Except ReadError α :=
  .error ⟨cause, c.offset⟩

/-- An error at the next byte, or at the end of the text when there is none. -/
def failNext {α : Type} (c : Cursor) (cause : Cause) : Except ReadError α :=
  .error ⟨cause, if c.rest.isEmpty then c.offset else c.offset + 1⟩

/-- The cursor behind blanks. -/
def skipBlanks (c : Cursor) : Cursor :=
  go c.rest c.offset
where
  /-- Drops blanks and counts their bytes. -/
  go : List Char → Nat → Cursor
    | [], offset => ⟨[], offset⟩
    | d :: rest, offset =>
        if d = ' ' ∨ d = '\n' ∨ d = '\t' ∨ d = '\r' then go rest (offset + 1)
        else ⟨d :: rest, offset⟩

/-- The cursor behind the next character. -/
def tail (c : Cursor) : Cursor :=
  match c.rest with
  | [] => c
  | d :: rest => ⟨rest, c.offset + d.utf8Size⟩

end Cursor

/-- Reads the remaining letters of a literal name. -/
def readIdent : List Char → Cursor → Except ReadError Cursor
  | [], c => .ok c
  | expected :: more, c =>
      match c.rest with
      | [] => c.fail .eofInValue
      | d :: _ => if d = expected then readIdent more c.tail else c.tail.fail .expectedIdent

/-- The value of a hexadecimal digit. -/
def hexDigit? (c : Char) : Option Nat :=
  if c.isDigit then some (c.toNat - '0'.toNat)
  else if 'a' ≤ c ∧ c ≤ 'f' then some (c.toNat - 'a'.toNat + 10)
  else if 'A' ≤ c ∧ c ≤ 'F' then some (c.toNat - 'A'.toNat + 10)
  else none

/-- Reads the four digits of an escape; fewer than four bytes are the end of the string. -/
def readHex (c : Cursor) : Except ReadError (Nat × Cursor) :=
  if byteSize (c.rest.take 4) < 4 then
    .error ⟨.eofInString, c.offset + byteSize c.rest⟩
  else
    match c.rest with
    | a :: b :: d :: e :: rest =>
        match hexDigit? a, hexDigit? b, hexDigit? d, hexDigit? e with
        | some x, some y, some z, some w =>
            .ok (((x * 16 + y) * 16 + z) * 16 + w, ⟨rest, c.offset + 4⟩)
        | _, _, _, _ => .error ⟨.invalidEscape, c.offset + 4⟩
    | _ => .error ⟨.invalidEscape, c.offset + 4⟩

/-- Reads an escape behind its letter `u`; a character beyond the basic plane takes two. -/
def readUnicodeEscape (c : Cursor) : Except ReadError (Char × Cursor) := do
  let (first, c) ← readHex c
  if 0xDC00 ≤ first ∧ first ≤ 0xDFFF then c.fail .loneSurrogate
  else if first < 0xD800 ∨ 0xDBFF < first then .ok (Char.ofNat first, c)
  else
    match c.rest with
    | [] => c.fail .eofInString
    | '\\' :: 'u' :: rest => do
        let (second, c) ← readHex ⟨rest, c.offset + 2⟩
        if second < 0xDC00 ∨ 0xDFFF < second then c.fail .loneSurrogate
        else .ok (Char.ofNat (0x10000 + (first - 0xD800) * 0x400 + (second - 0xDC00)), c)
    | ['\\'] => c.tail.fail .eofInString
    | '\\' :: _ => .error ⟨.unfinishedSurrogate, c.offset + 2⟩
    | _ => .error ⟨.unfinishedSurrogate, c.offset + 1⟩

/-- The character of a one-letter escape. -/
def escaped? : Char → Option Char
  | '"' => some '"'
  | '\\' => some '\\'
  | '/' => some '/'
  | 'b' => some '\x08'
  | 'f' => some '\x0c'
  | 'n' => some '\n'
  | 'r' => some '\r'
  | 't' => some '\t'
  | _ => none

/-- Reads an escape behind its backslash. -/
def readEscape (c : Cursor) : Except ReadError (Char × Cursor) :=
  match c.rest with
  | [] => c.fail .eofInString
  | 'u' :: _ => readUnicodeEscape c.tail
  | d :: _ =>
      match escaped? d with
      | some e => .ok (e, c.tail)
      | none => c.tail.fail .invalidEscape

/-- Reads the characters of a string behind its opening quote. -/
def readCharacters : Nat → Cursor → Except ReadError (List Char × Cursor)
  | 0, c => c.fail .eofInString
  | fuel + 1, c =>
      match c.rest with
      | [] => c.fail .eofInString
      | '"' :: _ => .ok ([], c.tail)
      | '\\' :: _ => do
          let (d, c) ← readEscape c.tail
          let (more, c) ← readCharacters fuel c
          .ok (d :: more, c)
      | d :: _ =>
          if d.toNat < 0x20 then c.tail.fail .controlCharacter
          else do
            let (more, c) ← readCharacters fuel c.tail
            .ok (d :: more, c)

/-- Reads a string behind its opening quote. -/
def readString (c : Cursor) : Except ReadError (String × Cursor) := do
  let (characters, c) ← readCharacters (c.rest.length + 1) c
  .ok (String.ofList characters, c)

/-- The greatest significand that is kept exactly. -/
def maxSignificand : Nat := 18446744073709551615

/-- `10 ^ n` as a float. -/
def powerOfTen (n : Nat) : Float := Float.ofScientific 1 false n

/-- Scales a float by a power of ten, in steps of at most `10 ^ 308`; too great a result is
none. -/
def scaleFloat : Nat → Float → Int → Option Float
  | 0, x, _ => some x
  | fuel + 1, x, exponent =>
      if exponent.natAbs ≤ 308 then
        if 0 ≤ exponent then
          let y := x * powerOfTen exponent.toNat
          if y.isInf then none else some y
        else some (x / powerOfTen (-exponent).toNat)
      else if x == 0.0 then some x
      else if 0 ≤ exponent then none
      else scaleFloat fuel (x / powerOfTen 308) (exponent + 308)

/-- The number with the given sign, significand and exponent of ten. -/
def makeBinary (negative : Bool) (significand : Nat) (exponent : Int) (c : Cursor) :
    Except ReadError (Number × Cursor) :=
  let x := Float.ofNat significand
  match scaleFloat (exponent.natAbs + 2) x exponent with
  | none => c.fail .numberOutOfRange
  | some y =>
      match ComponentAtlas.Number.Binary.ofFloat? (if negative then -y else y) with
      | some b => .ok (.binary b, c)
      | none => c.fail .numberOutOfRange

/-- Reads digits into a number, as long as it stays exact; digits past that are dropped and
counted. The result is the number, the digits read, the digits dropped and the cursor. -/
def readDigits (significand : Nat) : List Char → Nat → Bool → Nat → Nat → Nat × Nat × Nat × Cursor
  | [], offset, _, count, dropped => (significand, count, dropped, ⟨[], offset⟩)
  | d :: rest, offset, full, count, dropped =>
      if d.isDigit then
        let next := significand * 10 + (d.toNat - '0'.toNat)
        if full ∨ maxSignificand < next then
          readDigits significand rest (offset + 1) true count (dropped + 1)
        else readDigits next rest (offset + 1) false (count + 1) dropped
      else (significand, count, dropped, ⟨d :: rest, offset⟩)

/-- The greatest exponent that is added up before a number is taken for zero or infinite. -/
def maxExponent : Nat := 2147483647

/-- Reads the digits of an exponent, `none` when they exceed `maxExponent`. -/
def readExponentDigits (acc : Option Nat) : List Char → Nat → Option Nat × Cursor
  | [], offset => (acc, ⟨[], offset⟩)
  | d :: rest, offset =>
      if d.isDigit then
        let next := acc.bind fun n =>
          let m := n * 10 + (d.toNat - '0'.toNat)
          if maxExponent < m then none else some m
        readExponentDigits next rest (offset + 1)
      else (acc, ⟨d :: rest, offset⟩)

/-- Reads an exponent behind its letter and finishes the number. -/
def readExponent (negative : Bool) (significand : Nat) (exponent : Int) (c : Cursor) :
    Except ReadError (Number × Cursor) :=
  let (minus, c) : Bool × Cursor := match c.rest with
    | '+' :: _ => (false, c.tail)
    | '-' :: _ => (true, c.tail)
    | _ => (false, c)
  match c.rest with
  | [] => c.fail .eofInValue
  | d :: _ =>
      if d.isDigit then
        match readExponentDigits (some 0) c.rest c.offset with
        | (some n, c) =>
            makeBinary negative significand (if minus then exponent - n else exponent + n) c
        | (none, c) =>
            if significand ≠ 0 ∧ minus = false then c.fail .numberOutOfRange
            else makeBinary negative 0 0 c
      else c.tail.fail .invalidNumber

/-- Reads what may follow the digits of a fraction. -/
def finishFraction (negative : Bool) (significand : Nat) (exponent : Int) (c : Cursor) :
    Except ReadError (Number × Cursor) :=
  match c.rest with
  | 'e' :: _ => readExponent negative significand exponent c.tail
  | 'E' :: _ => readExponent negative significand exponent c.tail
  | _ => makeBinary negative significand exponent c

/-- Reads a fraction behind its point. -/
def readFraction (negative : Bool) (significand : Nat) (exponent : Int) (c : Cursor) :
    Except ReadError (Number × Cursor) :=
  let (significand, count, dropped, after) :=
    readDigits significand c.rest c.offset false 0 0
  if count + dropped = 0 then
    if c.rest.isEmpty then c.failNext .eofInValue else c.failNext .invalidNumber
  else finishFraction negative significand (exponent - count) after

/-- The number of an integer text. A negative zero and an integer out of range are fractions. -/
def makeInteger (negative : Bool) (significand : Nat) (c : Cursor) :
    Except ReadError (Number × Cursor) :=
  if negative = false then .ok (.natural significand, c)
  else if 0 < significand ∧ significand ≤ 9223372036854775808 then
    .ok (.negative significand, c)
  else makeBinary true significand 0 c

/-- Reads a number behind its sign. -/
def readNumber (negative : Bool) (c : Cursor) : Except ReadError (Number × Cursor) :=
  match c.rest with
  | [] => c.fail .eofInValue
  | first :: more =>
      if first = '0' ∧ (more.head?.any Char.isDigit) = true then c.tail.failNext .invalidNumber
      else if first.isDigit then
        let (significand, _, dropped, after) :=
          if first = '0' then (0, 1, 0, c.tail) else readDigits 0 c.rest c.offset false 0 0
        match after.rest with
        | '.' :: _ => readFraction negative significand dropped after.tail
        | 'e' :: _ => readExponent negative significand dropped after.tail
        | 'E' :: _ => readExponent negative significand dropped after.tail
        | _ =>
            if dropped = 0 then makeInteger negative significand after
            else makeBinary negative significand dropped after
      else c.tail.fail .invalidNumber

/-- A value with its place: `at_` is the offset that a report on its shape gives. A field has the
offset of the colon behind its key. -/
inductive Located where
  | null (at_ : Nat)
  | bool (at_ : Nat) (b : Bool)
  | number (at_ : Nat) (n : Number)
  | string (at_ : Nat) (s : String)
  | array (at_ stop : Nat) (items : List Located)
  | object (at_ stop : Nat) (fields : List (String × Nat × Located))
  deriving Inhabited

/-- The nesting depth at which reading stops. -/
def maxDepth : Nat := 127

mutual

/-- Reads a value, where `depth` more levels of nesting are allowed. -/
def readValue : Nat → Nat → Cursor → Except ReadError (Located × Cursor)
  | 0, _, c => c.fail .eofInValue
  | fuel + 1, depth, c =>
      let c := c.skipBlanks
      match c.rest with
      | [] => c.failNext .eofInValue
      | 'n' :: _ => do let c ← readIdent ['u', 'l', 'l'] c.tail; .ok (.null c.offset, c)
      | 't' :: _ => do let c ← readIdent ['r', 'u', 'e'] c.tail; .ok (.bool c.offset true, c)
      | 'f' :: _ => do
          let c ← readIdent ['a', 'l', 's', 'e'] c.tail
          .ok (.bool c.offset false, c)
      | '-' :: _ => do let (n, c) ← readNumber true c.tail; .ok (.number c.offset n, c)
      | '"' :: _ => do let (s, c) ← readString c.tail; .ok (.string c.offset s, c)
      | '[' :: _ =>
          match depth with
          | 0 => c.failNext .tooDeep
          | depth + 1 => do
              let (items, after) ← readItems fuel depth true c.tail
              .ok (.array c.offset after.offset items, after)
      | '{' :: _ =>
          match depth with
          | 0 => c.failNext .tooDeep
          | depth + 1 => do
              let (fields, after) ← readFields fuel depth true c.tail
              .ok (.object c.offset after.offset fields, after)
      | d :: _ =>
          if d.isDigit then do let (n, c) ← readNumber false c; .ok (.number c.offset n, c)
          else c.failNext .expectedValue

/-- Reads the items of an array up to its end; `first` says that none was read yet. -/
def readItems : Nat → Nat → Bool → Cursor → Except ReadError (List Located × Cursor)
  | 0, _, _, c => c.fail .eofInList
  | fuel + 1, depth, first, c =>
      let c := c.skipBlanks
      match c.rest with
      | [] => c.failNext .eofInList
      | ']' :: _ => .ok ([], c.tail)
      | d :: _ =>
          if first then do
            let (item, c) ← readValue fuel depth c
            let (items, c) ← readItems fuel depth false c
            .ok (item :: items, c)
          else if d = ',' then
            let c := c.tail.skipBlanks
            match c.rest with
            | [] => c.failNext .eofInValue
            | ']' :: _ => c.failNext .trailingComma
            | _ => do
                let (item, c) ← readValue fuel depth c
                let (items, c) ← readItems fuel depth false c
                .ok (item :: items, c)
          else c.failNext .expectedListEnd

/-- Reads the fields of an object up to its end; `first` says that none was read yet. -/
def readFields : Nat → Nat → Bool → Cursor →
    Except ReadError (List (String × Nat × Located) × Cursor)
  | 0, _, _, c => c.fail .eofInObject
  | fuel + 1, depth, first, c =>
      let c := c.skipBlanks
      match c.rest with
      | [] => c.failNext .eofInObject
      | '}' :: _ => .ok ([], c.tail)
      | d :: _ =>
          if first then
            if d = '"' then readField fuel depth c else c.failNext .keyNotString
          else if d = ',' then
            let c := c.tail.skipBlanks
            match c.rest with
            | [] => c.failNext .eofInValue
            | '"' :: _ => readField fuel depth c
            | '}' :: _ => c.failNext .trailingComma
            | _ => c.failNext .keyNotString
          else c.failNext .expectedObjectEnd

/-- Reads a field from the quote of its key on, and the fields behind it. -/
def readField : Nat → Nat → Cursor →
    Except ReadError (List (String × Nat × Located) × Cursor)
  | 0, _, c => c.fail .eofInObject
  | fuel + 1, depth, c => do
      let (key, c) ← readString c.tail
      let c := c.skipBlanks
      let colon := c.offset
      match c.rest with
      | [] => c.failNext .eofInObject
      | ':' :: _ => do
          let (value, c) ← readValue fuel depth c.tail
          let (fields, c) ← readFields fuel depth false c
          .ok ((key, colon, value) :: fields, c)
      | _ => c.failNext .expectedColon

end

/-- Reads a whole text as one located value. -/
def readLocated (text : String) : Except ReadError Located := do
  let start := Cursor.start text
  let (value, c) ← readValue (2 * start.rest.length + 2) maxDepth start
  let c := c.skipBlanks
  if c.rest.isEmpty then .ok value else c.failNext .trailingCharacters

mutual

/-- The value without its place; a repeated key keeps its first place and its last value. -/
def Located.value : Located → Value
  | .null _ => .null
  | .bool _ b => .bool b
  | .number _ n => .number n
  | .string _ s => .string s
  | .array _ _ items => .array (valuesOf items)
  | .object _ _ fields => .object (Fields.ofPairs (pairsOf fields))

/-- The items of an array without their places. -/
def Located.valuesOf : List Located → List Value
  | [] => []
  | item :: items => item.value :: valuesOf items

/-- The fields of an object without their places. -/
def Located.pairsOf : List (String × Nat × Located) → Fields
  | [] => []
  | (key, _, value) :: fields => (key, value.value) :: pairsOf fields

end

/-- Reads a whole text as one value. -/
def read (text : String) : Except ReadError Value :=
  (readLocated text).map Located.value

/-- The value of a text, if it is a JSON document. -/
def read? (text : String) : Option Value :=
  (read text).toOption

end ComponentAtlas.Json
