import ComponentAtlas.Binding.Resolve
import ComponentAtlas.Features.Ownership
import ComponentAtlas.Provider.Basic

/-!
# Hover

What an editor shows for a place in markup: the component of a tag, the attribute of a component,
or the property that an expression names.
-/

namespace ComponentAtlas

open ComponentAtlas.Text ComponentAtlas.Markup

/-- A text in markdown for a span of a document. -/
structure Hover where
  markdown : String
  span : Span
  deriving DecidableEq, Repr

namespace Hover

/-- The line for an attribute in the text of a tag. -/
def attributeLine (a : Attribute) : String :=
  match a.type with
  | some type => "- `" ++ a.name ++ "`: " ++ type ++ "\n"
  | none => "- `" ++ a.name ++ "`\n"

/-- The text without the blanks at its end. -/
def trimBlanks (s : String) : String :=
  String.ofList (trimEnd isBlank s.toList)

/-- The text of a tag. -/
def ofEntry (e : TagEntry) : String :=
  let component := match e.tag with
    | some t => " (*" ++ t.dialect.word ++ " component*)"
    | none => ""
  let documentation := match e.documentation with
    | some text => text ++ "\n\n"
    | none => ""
  let attributes := match e.tag with
    | some t =>
        if t.attributes.isEmpty then ""
        else "---\n\nAttributes:\n" ++ joinStrings "" (t.attributes.map attributeLine)
    | none => ""
  trimBlanks ("**" ++ e.identifier ++ "**" ++ component ++ "\n\n" ++ documentation ++ attributes)

/-- The text of an attribute. -/
def ofAttribute (a : Attribute) : String :=
  let type := match a.type with
    | some type => " (*" ++ type ++ "*)"
    | none => ""
  let documentation := match a.documentation with
    | some text => "\n\n" ++ text
    | none => ""
  "**" ++ a.name ++ "**" ++ type ++ documentation

/-- The text of an iteration variable. -/
def ofVariable (property : String) : String :=
  "**" ++ property ++ "** (*iteration variable*)"

/-- The text of a member of a component. -/
def ofMember (owner : Tag) (m : Member) : String :=
  let type := match m.type with
    | some type => ": `" ++ type ++ "`"
    | none => ""
  let documentation := match m.documentation with
    | some text => text ++ "\n\n---\n\n"
    | none => ""
  "**" ++ m.name ++ "** (*" ++ m.kind.word ++ "*" ++ type ++ ")\n\n" ++ documentation ++
    "Defined in: `" ++ owner.identifier ++ "`"

/-- What is shown for the binding under a cursor. -/
def atBinding? (ix : Index) (p : Path) (dialect : Dialect) (d : Document) (offset : Nat) :
    Option Hover := do
  let b ← Binding.at? dialect d offset
  let span := d.spanOf b.range
  if dialect = .lwc ∧ (Binding.declaration? dialect d offset b.property).isSome = true then
    return ⟨ofVariable b.property, span⟩
  else
    let owner ← ix.owner? dialect p
    let m ← owner.member? b.property
    return ⟨ofMember owner m, span⟩

/-- What is shown at a byte offset of a document. -/
def at? (ix : Index) (p : Path) (dialect : Dialect) (d : Document) (offset : Nat) :
    Option Hover := do
  let node := d.nodeAt offset
  let text := d.slice node.range
  match node.kind with
  | .tagName => return ⟨ofEntry (← ix.findTag? dialect text), d.spanOf node.range⟩
  | .attributeName =>
      let tag ← (← d.elementAt? offset) |> d.tagName?
      let a ← (ix.listAttributes dialect tag ++ Index.globalAttributes dialect).find?
        fun a => a.name == text
      return ⟨ofAttribute a, d.spanOf node.range⟩
  | _ => atBinding? ix p dialect d offset

end Hover

end ComponentAtlas
