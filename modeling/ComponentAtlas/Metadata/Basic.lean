/-!
# Metadata of a component

What a source file says about its component: documentation, the place of the declaration, the
members and the decorators with their targets. `normalize` leaves one entry per member name.
-/

namespace ComponentAtlas

/-- A line, counted from one, and a byte column, counted from zero. -/
structure SourcePoint where
  line : Nat
  column : Nat
  deriving DecidableEq, Repr, Inhabited

/-- The points from `start` to `stop`. -/
structure SourceRange where
  start : SourcePoint
  stop : SourcePoint
  deriving DecidableEq, Repr, Inhabited

/-- The two kinds of member. -/
inductive MemberKind where
  | property
  | method
  deriving DecidableEq, Repr

namespace MemberKind

/-- The word for a kind of member. -/
def word : MemberKind → String
  | .property => "property"
  | .method => "method"

/-- The kind of a word. -/
def ofWord? (word : String) : Option MemberKind :=
  [property, method].find? fun k => k.word == word

theorem ofWord?_word (k : MemberKind) : ofWord? k.word = some k := by
  cases k <;> decide

end MemberKind

/-- The decorators that change how a member is seen. -/
inductive DecoratorKind where
  | api
  | track
  | wire
  deriving DecidableEq, Repr

namespace DecoratorKind

/-- The decorator of a name. -/
def ofName? (name : String) : Option DecoratorKind :=
  if name = "api" then some .api
  else if name = "track" then some .track
  else if name = "wire" then some .wire
  else none

end DecoratorKind

/-- A member of a component class; `valueType` is guessed from its initial value. -/
structure ClassMember where
  name : String
  kind : MemberKind
  decorator : Option DecoratorKind
  doc : Option String
  range : Option SourceRange
  valueType : Option String
  deriving DecidableEq, Repr

/-- A member that a decorator stands before. -/
structure DecoratorTarget where
  name : String
  kind : MemberKind
  deriving DecidableEq, Repr

/-- A decorator and the members it stands before. -/
structure Decorator where
  kind : DecoratorKind
  targets : List DecoratorTarget
  deriving DecidableEq, Repr

/-- What is known about a component from its source. -/
structure Metadata where
  doc : Option String
  declaration : Option SourceRange
  members : List ClassMember
  decorators : List Decorator
  deriving DecidableEq, Repr

namespace Metadata

/-- No documentation, no place, no members. -/
def empty : Metadata := ⟨none, none, [], []⟩

/-- The members with one more: a name that is there already only gains a decorator or
documentation that it lacks. -/
def absorb : List ClassMember → ClassMember → List ClassMember
  | [], m => [m]
  | old :: rest, m =>
      if old.name = m.name then
        { old with decorator := old.decorator.or m.decorator, doc := old.doc.or m.doc } :: rest
      else old :: absorb rest m

/-- The members with a decorator put on a target: the target gains it if it has none, and becomes
a member if it is not one. -/
def decorate (kind : DecoratorKind) : List ClassMember → DecoratorTarget → List ClassMember
  | [], t => [⟨t.name, t.kind, some kind, none, none, none⟩]
  | old :: rest, t =>
      if old.name = t.name then { old with decorator := old.decorator.or (some kind) } :: rest
      else old :: decorate kind rest t

/-- The metadata with one member per name. -/
def normalize (m : Metadata) : Metadata :=
  let merged := m.members.foldl absorb []
  { m with
    members := m.decorators.foldl (fun members d => d.targets.foldl (decorate d.kind) members)
      merged }

end Metadata

end ComponentAtlas
