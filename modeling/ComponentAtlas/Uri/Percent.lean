/-!
# Percent coding

A percent sign and two hexadecimal digits stand for a byte. Bytes that are read as UTF-8 need
not be well formed: each longest ill-formed piece counts as one replacement character.
-/

namespace ComponentAtlas.Uri

/-- The bytes of a text in UTF-8. -/
def bytesOf (text : List Char) : List UInt8 :=
  text.flatMap String.utf8EncodeChar

/-- The character that stands for ill-formed bytes. -/
def replacement : Char := Char.ofNat 0xFFFD

/-- How many continuation bytes follow a first byte, and the range of the first of them. -/
def leadClass (b : Nat) : Option (Nat × Nat × Nat) :=
  if b < 0xC2 then none
  else if b ≤ 0xDF then some (1, 0x80, 0xBF)
  else if b = 0xE0 then some (2, 0xA0, 0xBF)
  else if b = 0xED then some (2, 0x80, 0x9F)
  else if b ≤ 0xEF then some (2, 0x80, 0xBF)
  else if b = 0xF0 then some (3, 0x90, 0xBF)
  else if b ≤ 0xF3 then some (3, 0x80, 0xBF)
  else if b = 0xF4 then some (3, 0x80, 0x8F)
  else none

/-- What is still to come of a character: its bits so far, the number of bytes left and the
range of the next one. -/
structure Pending where
  bits : Nat
  left : Nat
  low : Nat
  high : Nat

/-- The characters of bytes, given what is still to come of the current one. -/
def decodeFrom : Option Pending → List UInt8 → List Char
  | none, [] => []
  | some _, [] => [replacement]
  | none, b :: rest => start b.toNat rest
  | some p, b :: rest =>
      let n := b.toNat
      if p.low ≤ n ∧ n ≤ p.high then
        let bits := p.bits * 64 + n % 64
        if p.left ≤ 1 then Char.ofNat bits :: decodeFrom none rest
        else decodeFrom (some ⟨bits, p.left - 1, 0x80, 0xBF⟩) rest
      else replacement :: start n rest
where
  /-- Reads on behind the first byte of a character. -/
  start (n : Nat) (rest : List UInt8) : List Char :=
    if n < 0x80 then Char.ofNat n :: decodeFrom none rest
    else match leadClass n with
      | none => replacement :: decodeFrom none rest
      | some (left, low, high) =>
          decodeFrom (some ⟨n % (if left = 1 then 32 else if left = 2 then 16 else 8),
            left, low, high⟩) rest

/-- The text of bytes. -/
def decodeUtf8 (bytes : List UInt8) : List Char :=
  decodeFrom none bytes

/-- The text of bytes that are all well formed. -/
def decodeStrict? (bytes : List UInt8) : Option String :=
  String.fromUTF8? ⟨bytes.toArray⟩

/-- The value of a hexadecimal digit. -/
def hexValue? (c : Char) : Option Nat :=
  if c.isDigit then some (c.toNat - '0'.toNat)
  else if 'a' ≤ c ∧ c ≤ 'f' then some (c.toNat - 'a'.toNat + 10)
  else if 'A' ≤ c ∧ c ≤ 'F' then some (c.toNat - 'A'.toNat + 10)
  else none

/-- The bytes of a text in which some are percent coded. -/
def percentDecode : List Char → List UInt8
  | [] => []
  | '%' :: a :: b :: rest =>
      match hexValue? a, hexValue? b with
      | some x, some y => UInt8.ofNat (16 * x + y) :: percentDecode rest
      | _, _ => bytesOf ['%'] ++ percentDecode (a :: b :: rest)
  | c :: rest => bytesOf [c] ++ percentDecode rest

/-- An upper-case hexadecimal digit. -/
def upperHex (n : Nat) : Char :=
  if n < 10 then Char.ofNat ('0'.toNat + n) else Char.ofNat ('A'.toNat + (n - 10))

/-- The coded form of a byte. -/
def percentByte (b : UInt8) : List Char :=
  ['%', upperHex (b.toNat / 16), upperHex (b.toNat % 16)]

/-- A text with the characters outside ASCII, the control characters and those of a given class
percent coded. -/
def percentEncode (coded : Char → Bool) (text : List Char) : List Char :=
  text.flatMap fun c =>
    if c.toNat < 0x20 ∨ 0x7E < c.toNat ∨ coded c = true then
      (String.utf8EncodeChar c).flatMap percentByte
    else [c]

/-- The characters that are coded in the path of a URI. -/
def codedInPath (c : Char) : Bool :=
  [' ', '"', '<', '>', Char.ofNat 0x60, '#', '?', '\x7b', '\x7d'].contains c

/-- The characters that are coded in a single step of a path. -/
def codedInStep (c : Char) : Bool :=
  codedInPath c || c == '/' || c == '%' || c == '\\'

end ComponentAtlas.Uri
