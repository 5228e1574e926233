import ComponentAtlas.Tag.Dialect
import ComponentAtlas.Text.CharClass
import ComponentAtlas.Text.Pattern

/-!
# Bindings in a text

A binding is a braced expression that names a property. In templates the whole expression is a
path; in aura markup the path follows a scope and its end is not checked. Only the first name of
the path is the property, and a path that ends in a dot is no binding.
-/

namespace ComponentAtlas

open ComponentAtlas.Text

/-- A property that an expression names, and the range of its name. -/
structure Binding where
  property : String
  range : ByteRange
  deriving DecidableEq, Repr

namespace Binding

/-- The binding moved up by a number of bytes. -/
def shift (b : Binding) (base : Nat) : Binding :=
  { b with range := b.range.shift base }

/-- The characters that may start a property name. -/
def isNameStart (c : Char) : Bool :=
  c.isAlpha || c == '_' || c == '$'

/-- The characters of names. -/
def isNameChar (c : Char) : Bool :=
  isWordChar c || c == '$'

/-- A property name. -/
def namePattern : Pattern :=
  .seq (.one isNameStart) (.many (.one isNameChar))

/-- A path behind a property: names, each with a dot in front; a name may be missing. -/
def pathPattern : Pattern :=
  .many (.seq (.char '.') (.many (.one isNameChar)))

/-- An expression of a template: a path in braces. -/
def templatePattern : Pattern :=
  .inOrder [.char '\x7b', .many (.one isBlank), .group namePattern, .group pathPattern,
    .many (.one isBlank)] (.char '\x7d')

/-- What stands in front of the property in an expression of aura markup: a brace with its sign, a
negation, and the scope. -/
def scopePattern : Pattern :=
  .inOrder [.char '\x7b', .oneOf ['!', '#'], .many (.one isBlank), .maybe (.char '!'),
    .many (.one isBlank), .oneOf ['v', 'm', 'c']] (.char '.')

/-- An expression of aura markup, up to the end of its path. -/
def auraPattern : Pattern :=
  .inOrder [scopePattern, .group namePattern] (.group pathPattern)

/-- The expressions of a dialect. -/
def pattern : Dialect → Pattern
  | .lwc => templatePattern
  | .aura => auraPattern

/-- The binding of an expression, unless its path ends in a dot. -/
def ofReading? (m : Reading) : Option Binding :=
  match m.groups with
  | [(range, name), (_, path)] =>
      if path.getLast? = some '.' then none else some ⟨String.ofList name, range⟩
  | _ => none

/-- The bindings of a text, in order. -/
def scan (d : Dialect) (text : List Char) : List Binding :=
  ((pattern d).matchesIn text).filterMap ofReading?

end Binding

end ComponentAtlas
