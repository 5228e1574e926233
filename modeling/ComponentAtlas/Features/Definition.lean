import ComponentAtlas.Binding.Resolve
import ComponentAtlas.Features.Ownership
import ComponentAtlas.Provider.Basic

/-!
# Definition

Where a name in markup is declared: a tag by the file of its component, an attribute by the
member behind it, and a property by the document itself or else by a member of its component.
-/

namespace ComponentAtlas

open ComponentAtlas.Text ComponentAtlas.Markup

namespace Definition

/-- Where the property under a cursor is declared. -/
def atBinding? (ix : Index) (p : Path) (dialect : Dialect) (d : Document) (offset : Nat) :
    Option Location := do
  let b ← Binding.at? dialect d offset
  match Binding.declaringSpan? dialect d offset b.property with
  | some span => Location.ofPath? p (some span)
  | none =>
      let owner ← ix.owner? dialect p
      let m ← owner.member? b.property
      Location.ofPath? owner.file m.location

/-- Where the name at a byte offset of a document is declared. -/
def at? (ix : Index) (p : Path) (dialect : Dialect) (d : Document) (offset : Nat) :
    Option Location := do
  let node := d.nodeAt offset
  let text := d.slice node.range
  match node.kind with
  | .tagName =>
      let t ← (← ix.findTag? dialect text).tag
      Location.ofPath? t.file t.declaration
  | .attributeName =>
      let tag ← (← d.elementAt? offset) |> d.tagName?
      let t ← (← ix.findTag? dialect tag).tag
      let a ← t.attribute? text
      Location.ofPath? t.file a.location
  | _ => atBinding? ix p dialect d offset

end Definition

end ComponentAtlas
