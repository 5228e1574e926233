import ComponentAtlas.Markup.Document
import ComponentAtlas.Metadata.Diagnostic

/-!
# Components in aura markup

The component of a markup file is its first top-level element in the namespace of the framework.
Attributes, events and methods that it declares are members; they are public unless their access
says otherwise.
-/

namespace ComponentAtlas.Markup

open ComponentAtlas.Text

namespace Document

/-- Whether the name of an element is in the namespace of the framework. -/
def isFrameworkElement (d : Document) (element : Node) : Bool :=
  (d.tagName? element).any fun name => "aura:".isPrefixOf name

/-- The value of the first attribute of an element with a name. -/
def valueOf? (d : Document) (element : Node) (name : String) : Option String :=
  (d.attribute? element name).bind TagAttribute.value

/-- The kind of member that an element declares. -/
def memberKind? (d : Document) (element : Node) : Option MemberKind :=
  match d.tagName? element with
  | some "aura:attribute" => some .property
  | some "aura:registerEvent" => some .property
  | some "aura:method" => some .method
  | _ => none

/-- Whether the access of a member keeps it from others. -/
def isPrivate (d : Document) (element : Node) : Bool :=
  (d.valueOf? element "access").any fun access =>
    access.toList.map Char.toLower == "private".toList

/-- The member that an element declares. -/
def member? (d : Document) (element : Node) : Option ClassMember := do
  let kind ← d.memberKind? element
  let name ← d.valueOf? element "name"
  return ⟨name, kind, if d.isPrivate element then none else some .api,
    d.valueOf? element "description", some (.ofBytes d.text element.range),
    d.valueOf? element "type"⟩

/-- The metadata of the component in a document. -/
def metadata? (d : Document) : Option Metadata :=
  (d.root.elements.find? d.isFrameworkElement).map fun root =>
    Metadata.normalize
      ⟨d.valueOf? root "description", some (.ofBytes d.text root.range),
        root.elements.filterMap d.member?, []⟩

end Document

/-- The metadata of a markup file. -/
def metadata (source : String) (file : String) : Except (List Diagnostic) Metadata :=
  match (Document.read source).metadata? with
  | some m => .ok m
  | none => .error [⟨file ++ " has no aura root element", none⟩]

end ComponentAtlas.Markup
