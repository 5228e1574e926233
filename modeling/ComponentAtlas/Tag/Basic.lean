import ComponentAtlas.Metadata.Diagnostic
import ComponentAtlas.Tag.Identity

/-!
# Component tags

A tag is what the registries hold for a component: its names, its file and its members. The
attributes are the public members under the names that markup uses for them.
-/

namespace ComponentAtlas

open ComponentAtlas.Text

/-- How a member is seen: public, reactive, or neither. -/
inductive Origin where
  | api
  | track
  | plain
  deriving DecidableEq, Repr

namespace Origin

/-- The word for an origin. -/
def word : Origin → String
  | .api => "api"
  | .track => "track"
  | .plain => "plain"

/-- The origin of a word. -/
def ofWord? (word : String) : Option Origin :=
  [api, track, plain].find? fun o => o.word == word

theorem ofWord?_word (o : Origin) : ofWord? o.word = some o := by
  cases o <;> decide

/-- The origin that a decorator gives. -/
def ofDecorator : Option DecoratorKind → Origin
  | some .api => .api
  | some .track => .track
  | some .wire => .plain
  | none => .plain

end Origin

/-- A member of a component. -/
structure Member where
  name : String
  kind : MemberKind
  origin : Origin
  documentation : Option String
  type : Option String
  location : Option Span
  deriving DecidableEq, Repr

/-- A public member under its name in markup; `sourceName` is its declared name. -/
structure Attribute where
  name : String
  sourceName : String
  documentation : Option String
  kind : MemberKind
  origin : Origin
  type : Option String
  location : Option Span
  deriving DecidableEq, Repr

/-- A component as the registries know it. -/
structure Tag where
  identity : Identity
  dialect : Dialect
  file : Path
  modifiedAt : Nat
  documentation : Option String
  declaration : Option Span
  attributes : List Attribute
  members : List Member
  deriving DecidableEq, Repr

/-- The name of an attribute in markup of a dialect. -/
def Dialect.attributeName (d : Dialect) (sourceName : String) : String :=
  match d with
  | .lwc => kebabOfCamel sourceName
  | .aura => sourceName

/-- The attribute of a member in a dialect. -/
def Member.asAttribute (m : Member) (d : Dialect) : Attribute :=
  ⟨d.attributeName m.name, m.name, m.documentation, m.kind, m.origin, m.type, m.location⟩

/-- The member of a component that a class member declares. -/
def Member.ofClassMember (m : ClassMember) : Member :=
  ⟨m.name, m.kind, Origin.ofDecorator m.decorator, m.doc, m.valueType,
    m.range.map SourceRange.span⟩

namespace Tag

/-- The attributes that members give in a dialect. -/
def publicAttributes (d : Dialect) (members : List Member) : List Attribute :=
  (members.filter fun m => m.origin == .api).map fun m => m.asAttribute d

/-- A tag with the attributes that its members give. -/
def ofMembers (identity : Identity) (dialect : Dialect) (file : Path) (modifiedAt : Nat)
    (documentation : Option String) (declaration : Option Span) (members : List Member) : Tag :=
  ⟨identity, dialect, file, modifiedAt, documentation, declaration,
    publicAttributes dialect members, members⟩

/-- The tag of a compiled component. -/
def ofMetadata (identity : Identity) (dialect : Dialect) (file : Path) (modifiedAt : Nat)
    (m : Metadata) : Tag :=
  ofMembers identity dialect file modifiedAt m.doc (m.declaration.map SourceRange.span)
    (m.members.map Member.ofClassMember)

/-- The key of a tag. -/
def key (t : Tag) : String := t.identity.key

/-- The identifier of a tag in its own dialect. -/
def identifier (t : Tag) : String := t.identity.render

/-- The first attribute with a name, in markup or as declared. -/
def attribute? (t : Tag) (name : String) : Option Attribute :=
  t.attributes.find? fun a => a.name == name || a.sourceName == name

/-- The first member with a name. -/
def member? (t : Tag) (name : String) : Option Member :=
  t.members.find? fun m => m.name == name

@[simp] theorem attributes_ofMembers (identity : Identity) (dialect : Dialect) (file : Path)
    (modifiedAt : Nat) (documentation : Option String) (declaration : Option Span)
    (members : List Member) :
    (ofMembers identity dialect file modifiedAt documentation declaration members).attributes =
      publicAttributes dialect members := rfl

end Tag

end ComponentAtlas
