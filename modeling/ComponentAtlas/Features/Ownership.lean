import ComponentAtlas.Registry.Index
import ComponentAtlas.Registry.Lookup
import ComponentAtlas.Text.Position
import ComponentAtlas.Uri.Basic

/-!
# The component of a template

A template belongs to the component that its own file defines, else to the one whose script it is
named after, else to a component of its folder.
-/

namespace ComponentAtlas

open ComponentAtlas.Text

/-- The component that a markup file belongs to. -/
def Index.owner? (ix : Index) (d : Dialect) (p : Path) : Option Tag :=
  let r := ix.registry d
  ((r.tagForFile? p).or
    (if d = .lwc ∧ p.extension? = some "html" then r.findUri? p.text else none)).or
    (p.parent?.bind fun folder =>
      r.owned.find? fun t => t.file.parent?.any folder.same)

/-- A span of a file. -/
structure Location where
  uri : String
  span : Span
  deriving DecidableEq, Repr

/-- The place of a file; without a span it is the start of the file. -/
def Location.ofPath? (p : Path) (span : Option Span) : Option Location :=
  (Uri.ofPath? p).map fun uri => ⟨uri, span.getD ⟨0, 0, 0, 0⟩⟩

end ComponentAtlas
