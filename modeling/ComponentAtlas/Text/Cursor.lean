import ComponentAtlas.Text.Position

/-!
# Cursors

A cursor is a place in a text: the characters still to be read and the bytes that were read.
-/

namespace ComponentAtlas.Text

/-- The characters still to be read, and the number of bytes in front of them. -/
structure Cursor where
  rest : List Char
  offset : Nat
  deriving Repr, Inhabited

namespace Cursor

/-- The start of a text. -/
def start (text : List Char) : Cursor := ⟨text, 0⟩

/-- The cursor behind some characters that come next. -/
def past (c : Cursor) (front : List Char) : Cursor :=
  ⟨c.rest.drop front.length, c.offset + byteSize front⟩

/-- The characters up to the first that fails a test. -/
def while_ (c : Cursor) (p : Char → Bool) : List Char :=
  c.rest.takeWhile p

/-- The cursor behind the characters that pass a test. -/
def skip (c : Cursor) (p : Char → Bool) : Cursor :=
  c.past (c.while_ p)

/-- The cursor behind the next character. -/
def tail (c : Cursor) : Cursor :=
  c.past (c.rest.take 1)

/-- The next character. -/
def head? (c : Cursor) : Option Char :=
  c.rest.head?

/-- Whether given characters come next. -/
def startsWith (c : Cursor) (front : List Char) : Bool :=
  front.isPrefixOf c.rest

/-- The range from one cursor to another. -/
def rangeTo (c d : Cursor) : ByteRange :=
  ⟨c.offset, d.offset⟩

/-- The range of some characters that come next. -/
def rangeOf (c : Cursor) (front : List Char) : ByteRange :=
  c.rangeTo (c.past front)

end Cursor

end ComponentAtlas.Text
