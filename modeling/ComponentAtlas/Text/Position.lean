import ComponentAtlas.Text.Extent

/-!
# Editor positions

An editor addresses a text by line and UTF-16 column, a parser by byte offset. `positionAt` and
`offsetAt` convert between the two; `Span` is a pair of positions and `ByteRange` a pair of
offsets.
-/

namespace ComponentAtlas.Text

/-- A line and a column in UTF-16 units, both counted from zero. -/
structure Position where
  line : Nat
  character : Nat
  deriving DecidableEq, Repr, Inhabited

/-- The positions from `start` to `stop`, both counted from zero. -/
structure Span where
  startLine : Nat
  startCol : Nat
  endLine : Nat
  endCol : Nat
  deriving DecidableEq, Repr, Inhabited

namespace Span

/-- The first position of a span. -/
def start (s : Span) : Position := ⟨s.startLine, s.startCol⟩

/-- The position just behind a span. -/
def stop (s : Span) : Position := ⟨s.endLine, s.endCol⟩

/-- The span between two positions. -/
def ofPositions (start stop : Position) : Span :=
  ⟨start.line, start.character, stop.line, stop.character⟩

end Span

/-- The line, from one, and the byte column, from zero, of a byte offset. -/
def lineAndColumn (text : List Char) (offset : Nat) : Nat × Nat :=
  go text offset 1 0
where
  /-- Reads on from a line and a column. -/
  go : List Char → Nat → Nat → Nat → Nat × Nat
    | [], _, line, column => (line, column)
    | c :: rest, left, line, column =>
        if c.utf8Size ≤ left then
          if c = '\n' then go rest (left - 1) (line + 1) 0
          else go rest (left - c.utf8Size) line (column + c.utf8Size)
        else (line, column + left)

/-- A half-open range of byte offsets. -/
structure ByteRange where
  start : Nat
  stop : Nat
  deriving DecidableEq, Repr, Inhabited

namespace ByteRange

/-- Whether an offset lies in the range or just behind it. -/
def touches (r : ByteRange) (offset : Nat) : Bool :=
  r.start ≤ offset && offset ≤ r.stop

/-- The range moved up by a number of bytes. -/
def shift (r : ByteRange) (base : Nat) : ByteRange :=
  ⟨base + r.start, base + r.stop⟩

/-- The text that the range covers. -/
def slice (r : ByteRange) (text : List Char) : List Char :=
  sliceBytes r.start r.stop text

end ByteRange

/-- The position behind a text that is read from a given position on. -/
def advance : Position → List Char → Position
  | p, [] => p
  | p, c :: rest =>
      if c = '\n' then advance ⟨p.line + 1, 0⟩ rest
      else advance ⟨p.line, p.character + unitSize c⟩ rest

/-- The position of a byte offset; an offset inside a character counts as its start. -/
def positionAt (text : List Char) (offset : Nat) : Position :=
  advance ⟨0, 0⟩ (takeBytes offset text)

/-- The bytes up to the start of a line and the text from there on, if there is such a line. -/
def lineStart? : Nat → List Char → Option (Nat × List Char)
  | 0, text => some (0, text)
  | _ + 1, [] => none
  | n + 1, c :: rest =>
      (lineStart? (if c = '\n' then n else n + 1) rest).map fun (skipped, tail) =>
        (skipped + c.utf8Size, tail)

/-- The bytes of a line that fit into a number of UTF-16 units. -/
def columnBytes : Nat → List Char → Nat
  | _, [] => 0
  | units, c :: rest =>
      if units = 0 ∨ c = '\n' ∨ units < unitSize c then 0
      else c.utf8Size + columnBytes (units - unitSize c) rest

/-- The byte offset of a position: a column past the end of a line is its end, a line past the
end of the text is the end of the text. -/
def offsetAt (text : List Char) (p : Position) : Nat :=
  match lineStart? p.line text with
  | none => byteSize text
  | some (skipped, tail) => skipped + columnBytes p.character tail

/-- The span of a byte range. -/
def spanOf (text : List Char) (r : ByteRange) : Span :=
  Span.ofPositions (positionAt text r.start) (positionAt text r.stop)

/-- The line and the byte column of an offset, both counted from zero. -/
def pointAt (text : List Char) (offset : Nat) : Nat × Nat :=
  (takeBytes offset text).foldl
    (fun (p : Nat × Nat) c => if c = '\n' then (p.1 + 1, 0) else (p.1, p.2 + c.utf8Size)) (0, 0)

end ComponentAtlas.Text
