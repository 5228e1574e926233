import ComponentAtlas.Features.Context
import ComponentAtlas.Features.Ownership
import ComponentAtlas.Provider.Basic

/-!
# Completion

The names that fit at a place in markup: tags, attributes, or the members of the component that
the document belongs to.
-/

namespace ComponentAtlas

/-- What a completed name stands for. -/
inductive CompletionKind where
  | component
  | property
  | method
  deriving DecidableEq, Repr

/-- A name that may be completed. -/
structure Completion where
  label : String
  kind : CompletionKind
  detail : Option String
  documentation : Option String
  deriving DecidableEq, Repr

namespace Completion

/-- The completion of a tag. -/
def ofEntry (e : TagEntry) : Completion :=
  ⟨e.label, .component, e.tag.map fun t => t.dialect.word ++ " component", e.documentation⟩

/-- The completion of an attribute. -/
def ofAttribute (a : Attribute) : Completion :=
  ⟨a.name, .property, a.type, a.documentation⟩

/-- The completion of a name in an expression of a component. -/
def ofMemberName (owner : Tag) (name : String) : Completion :=
  match owner.member? name with
  | some m =>
      ⟨name, if m.kind = .method then .method else .property, m.type, m.documentation⟩
  | none => ⟨name, .property, none, none⟩

/-- The tags that fit. -/
def tags (ix : Index) (d : Dialect) : List Completion :=
  (ix.listTags d).map ofEntry

/-- The attributes that fit on a tag, each name once. -/
def attributes (ix : Index) (d : Dialect) (tag : String) : List Completion :=
  (firstsBy Attribute.name (ix.listAttributes d tag ++ Index.globalAttributes d)).map ofAttribute

/-- The members that an expression of a document may use. -/
def members (ix : Index) (p : Path) (d : Dialect) : List Completion :=
  match ix.owner? d p with
  | none => []
  | some owner => (ix.bindableMembers d owner.identifier).map (ofMemberName owner)

/-- The names that fit in a context. -/
def inContext (ix : Index) (p : Path) (d : Dialect) : CompletionContext → List Completion
  | .tagName _ => tags ix d
  | .attributeName tag _ => attributes ix d tag
  | .expression _ => members ix p d
  | .text => []

/-- The names that fit at a byte offset of a text, if there are any. -/
def at? (ix : Index) (p : Path) (d : Dialect) (text : List Char) (offset : Nat) :
    Option (List Completion) :=
  match inContext ix p d (CompletionContext.ofOffset text offset) with
  | [] => none
  | found => some found

end Completion

end ComponentAtlas
