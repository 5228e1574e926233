/-!
# Extents of a text

A text is a list of characters, addressed by byte offsets into its UTF-8 form. A cut that falls
inside a character is moved down to the start of that character. The main statements say that
a cut loses nothing and that its first part is never longer than asked.
-/

namespace ComponentAtlas.Text

/-- The number of bytes of a text in UTF-8. -/
def byteSize : List Char → Nat
  | [] => 0
  | c :: rest => c.utf8Size + byteSize rest

@[simp] theorem byteSize_nil : byteSize [] = 0 := rfl

@[simp] theorem byteSize_cons (c : Char) (rest : List Char) :
    byteSize (c :: rest) = c.utf8Size + byteSize rest := rfl

@[simp] theorem byteSize_append (front back : List Char) :
    byteSize (front ++ back) = byteSize front + byteSize back := by
  induction front with
  | nil => simp
  | cons c rest ih => simp [ih, Nat.add_assoc]

/-- A character beyond the basic plane takes two UTF-16 units, any other takes one. -/
def unitSize (c : Char) : Nat :=
  if c.toNat < 0x10000 then 1 else 2

/-- The number of UTF-16 units of a text. -/
def unitCount : List Char → Nat
  | [] => 0
  | c :: rest => unitSize c + unitCount rest

@[simp] theorem unitCount_nil : unitCount [] = 0 := rfl

@[simp] theorem unitCount_cons (c : Char) (rest : List Char) :
    unitCount (c :: rest) = unitSize c + unitCount rest := rfl

/-- The longest front of a text that has at most the given number of bytes. -/
def takeBytes : Nat → List Char → List Char
  | _, [] => []
  | n, c :: rest => if c.utf8Size ≤ n then c :: takeBytes (n - c.utf8Size) rest else []

/-- What follows the longest front that has at most the given number of bytes. -/
def dropBytes : Nat → List Char → List Char
  | _, [] => []
  | n, c :: rest => if c.utf8Size ≤ n then dropBytes (n - c.utf8Size) rest else c :: rest

/-- The part of a text between two byte offsets. -/
def sliceBytes (start stop : Nat) (text : List Char) : List Char :=
  takeBytes (stop - start) (dropBytes start text)

theorem takeBytes_append_dropBytes (n : Nat) (text : List Char) :
    takeBytes n text ++ dropBytes n text = text := by
  induction text generalizing n with
  | nil => simp [takeBytes, dropBytes]
  | cons c rest ih =>
      by_cases h : c.utf8Size ≤ n
      · simp [takeBytes, dropBytes, h, ih]
      · simp [takeBytes, dropBytes, h]

theorem byteSize_takeBytes_le (n : Nat) (text : List Char) :
    byteSize (takeBytes n text) ≤ n := by
  induction text generalizing n with
  | nil => simp [takeBytes]
  | cons c rest ih =>
      by_cases h : c.utf8Size ≤ n
      · have := ih (n - c.utf8Size)
        simp only [takeBytes, h, if_true, byteSize_cons]
        omega
      · simp [takeBytes, h]

/-- The byte offsets at which a character starts, and the end of the text. -/
def boundaries : Nat → List Char → List Nat
  | at_, [] => [at_]
  | at_, c :: rest => at_ :: boundaries (at_ + c.utf8Size) rest

/-- The text without the given front, when it starts with it. -/
def stripFront? : List Char → List Char → Option (List Char)
  | [], text => some text
  | _ :: _, [] => none
  | p :: front, c :: rest => if p = c then stripFront? front rest else none

theorem stripFront?_eq_some_iff {front text rest : List Char} :
    stripFront? front text = some rest ↔ text = front ++ rest := by
  induction front generalizing text with
  | nil => simp [stripFront?, eq_comm]
  | cons p front ih =>
      cases text with
      | nil => simp [stripFront?]
      | cons c text =>
          by_cases h : p = c
          · subst h; simp [stripFront?, ih]
          · simp [stripFront?, h, Ne.symm h]

/-- The pieces of a text between the occurrences of a separator. -/
def splitAt (sep : Char) : List Char → List (List Char)
  | [] => [[]]
  | c :: rest =>
      if c = sep then [] :: splitAt sep rest
      else match splitAt sep rest with
        | [] => [[c]]
        | piece :: pieces => (c :: piece) :: pieces

/-- The pieces joined with a text between each two. -/
def joinWith (sep : List Char) : List (List Char) → List Char
  | [] => []
  | [piece] => piece
  | piece :: pieces => piece ++ sep ++ joinWith sep pieces

/-- The text without the longest front of characters that satisfy a test. -/
def trimStart (p : Char → Bool) (text : List Char) : List Char :=
  text.dropWhile p

/-- The text without the longest end of characters that satisfy a test. -/
def trimEnd (p : Char → Bool) : List Char → List Char
  | [] => []
  | c :: rest =>
      match trimEnd p rest with
      | [] => if p c then [] else [c]
      | kept => c :: kept

/-- The text without the characters that satisfy a test at both ends. -/
def trim (p : Char → Bool) (text : List Char) : List Char :=
  trimEnd p (trimStart p text)

/-- Strings joined with a separator. -/
def joinStrings (sep : String) (parts : List String) : String :=
  sep.intercalate parts

end ComponentAtlas.Text
