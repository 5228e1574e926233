import ComponentAtlas.Tag.Dialect
import ComponentAtlas.Text.Naming

/-!
# Identity of a tag

A tag is known by a namespace and a local name. Its key does not depend on the delimiter; its
rendered form is what markup of its dialect writes.
-/

namespace ComponentAtlas

open ComponentAtlas.Text

/-- The names of a tag. The local name is kept in camel case, as declared. -/
structure Identity where
  space : String
  localName : String
  delimiter : Delimiter
  deriving DecidableEq, Repr

namespace Identity

/-- The key of a namespace and a local name. -/
def keyOf (space localName : String) : String :=
  space ++ ":" ++ localName

/-- The key under which a tag is registered. -/
def key (i : Identity) : String :=
  keyOf i.space i.localName

/-- The identifier as markup writes it; behind a hyphen the local name has hyphens too. -/
def render (i : Identity) : String :=
  match i.delimiter with
  | .colon => i.space ++ ":" ++ i.localName
  | .hyphen => i.space ++ "-" ++ kebabOfCamel i.localName

/-- The identity with another delimiter. -/
def withDelimiter (i : Identity) (d : Delimiter) : Identity :=
  { i with delimiter := d }

/-- The specifier under which a script imports the component. -/
def moduleSpecifier (i : Identity) : String :=
  i.space ++ "/" ++ i.localName

@[simp] theorem key_withDelimiter (i : Identity) (d : Delimiter) :
    (i.withDelimiter d).key = i.key := rfl

end Identity

end ComponentAtlas
