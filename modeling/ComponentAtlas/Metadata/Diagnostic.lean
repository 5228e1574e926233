import ComponentAtlas.Metadata.Basic
import ComponentAtlas.Text.Position

/-!
# Diagnostics

A file that cannot be read as a component gives diagnostics. A diagnostic may have a point of the
source; an editor counts its lines from zero.
-/

namespace ComponentAtlas

open ComponentAtlas.Text

/-- The position that an editor shows for a point of a source. -/
def SourcePoint.editorPosition (p : SourcePoint) : Position :=
  ⟨p.line - 1, p.column⟩

/-- The editor span of a range of a source. -/
def SourceRange.span (r : SourceRange) : Span :=
  Span.ofPositions r.start.editorPosition r.stop.editorPosition

/-- The point of a byte offset in a source. -/
def SourcePoint.ofOffset (text : List Char) (offset : Nat) : SourcePoint :=
  let (line, column) := lineAndColumn text offset
  ⟨line, column⟩

/-- The points around a range of bytes of a source. -/
def SourceRange.ofBytes (text : List Char) (r : ByteRange) : SourceRange :=
  ⟨.ofOffset text r.start, .ofOffset text r.stop⟩

/-- A message about a source, with the point it is about. -/
structure Diagnostic where
  message : String
  point : Option SourcePoint
  deriving DecidableEq, Repr

namespace Diagnostic

/-- The position of a diagnostic in an editor. -/
def editorPosition (d : Diagnostic) : Option Position :=
  d.point.map SourcePoint.editorPosition

/-- The message behind line and column. -/
def display (d : Diagnostic) : String :=
  match d.editorPosition with
  | some p => s!"{p.line}:{p.character}: {d.message}"
  | none => d.message

end Diagnostic

end ComponentAtlas
