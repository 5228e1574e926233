import ComponentAtlas.Provider.Builtin
import ComponentAtlas.Registry.Index
import ComponentAtlas.Registry.Lookup

/-!
# Providers

A provider knows tags and attributes for markup: each registry is one, and the built-in names are
two more. For a dialect the applicable providers are asked in a fixed order, and of entries with
one identifier the first stands.
-/

namespace ComponentAtlas

/-- A tag as a provider lists it; built-in tags have no component. -/
structure TagEntry where
  identifier : String
  label : String
  documentation : Option String
  tag : Option Tag
  deriving DecidableEq, Repr

namespace TagEntry

/-- The entry of a component. -/
def ofTag (t : Tag) : TagEntry :=
  ⟨t.identifier, t.identifier, t.documentation, some t⟩

/-- The entry of a system tag. -/
def ofSystemTag (s : Builtin.SystemTag) : TagEntry :=
  ⟨s.identifier, s.identifier, some s.documentation, none⟩

end TagEntry

/-- A source of tags and attributes. -/
inductive Provider where
  | registry (d : Dialect)
  | directives
  | systemTags
  deriving DecidableEq, Repr

namespace Provider

/-- All providers, in the order in which they are asked. -/
def all : List Provider := [.registry .lwc, .registry .aura, .directives, .systemTags]

/-- The name of a provider. -/
def id : Provider → String
  | .registry .lwc => "lwc-registry"
  | .registry .aura => "aura-registry"
  | .directives => "lwc-directives"
  | .systemTags => "aura-system"

/-- The dialect that a provider serves. -/
def dialect : Provider → Dialect
  | .registry d => d
  | .directives => .lwc
  | .systemTags => .aura

/-- The providers of a dialect. -/
def applicable (d : Dialect) : List Provider :=
  all.filter fun p => p.dialect == d

/-- The tags of a provider. -/
def tags (ix : Index) : Provider → List TagEntry
  | .registry d => (ix.registry d).all.map .ofTag
  | .directives => []
  | .systemTags => Builtin.systemTags.map .ofSystemTag

/-- The tag of an identifier. -/
def find? (ix : Index) (identifier : String) : Provider → Option TagEntry
  | .registry d => ((ix.registry d).find? identifier).map .ofTag
  | .directives => none
  | .systemTags =>
      (Builtin.systemTags.find? fun s => s.identifier == identifier).map .ofSystemTag

/-- The attributes of the tag of an identifier. -/
def attributes (ix : Index) (identifier : String) : Provider → List Attribute
  | .registry d =>
      match (ix.registry d).find? identifier with
      | some t => t.attributes
      | none => []
  | .directives => []
  | .systemTags =>
      match Builtin.systemTags.find? fun s => s.identifier == identifier with
      | some s => s.attributes.map fun a =>
          Builtin.attributeOf a.name (some a.type) a.documentation
      | none => []

/-- The names that an expression of the tag of an identifier may use. -/
def members (ix : Index) (identifier : String) : Provider → List String
  | .registry d =>
      match (ix.registry d).find? identifier with
      | some t => t.members.map Member.name
      | none => []
  | _ => []

/-- The attributes that any element may have. -/
def globals : Provider → List Attribute
  | .directives => Builtin.directives.map fun (name, documentation) =>
      Builtin.attributeOf name none documentation
  | _ => []

end Provider

/-- The items whose key was not there before, in order. -/
def firstsBy {α : Type} (key : α → String) (items : List α) : List α :=
  (items.foldl (fun (kept : List α) item =>
    if kept.any fun other => key other == key item then kept else item :: kept) []).reverse

namespace Index

/-- The tags that markup of a dialect may use. -/
def listTags (ix : Index) (d : Dialect) : List TagEntry :=
  firstsBy TagEntry.identifier ((Provider.applicable d).flatMap fun p => p.tags ix)

/-- The tag of an identifier in markup of a dialect. -/
def findTag? (ix : Index) (d : Dialect) (identifier : String) : Option TagEntry :=
  (Provider.applicable d).findSome? fun p => p.find? ix identifier

/-- The attributes of the tag of an identifier in markup of a dialect. -/
def listAttributes (ix : Index) (d : Dialect) (identifier : String) : List Attribute :=
  (Provider.applicable d).flatMap fun p => p.attributes ix identifier

/-- The attributes that any element may have in markup of a dialect. -/
def globalAttributes (d : Dialect) : List Attribute :=
  (Provider.applicable d).flatMap Provider.globals

/-- The names that an expression of the tag of an identifier may use, without repetition. -/
def bindableMembers (ix : Index) (d : Dialect) (identifier : String) : List String :=
  firstsBy (fun name => name) ((Provider.applicable d).flatMap fun p => p.members ix identifier)

end Index

end ComponentAtlas
