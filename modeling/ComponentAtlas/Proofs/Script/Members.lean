import ComponentAtlas.Proofs.Indexing.Locations

/-!
# Members of a class

The members of a component are the fields, methods and accessors in the body of its class that bear
no mark of being static, each name once, and the constructor is none of them. A decorator of a
member is listed with the member as a target, and all targets are members; the attributes of the tag
are the public members. A static getter whose name is on a later line bears another mark than the
word alone, so it counts as a member of the component.
-/

namespace ComponentAtlas

open ComponentAtlas.Text

namespace Script

section Decorators

variable {kind k : DecoratorKind} {target t : DecoratorTarget} {found : List Decorator}
  {members : List ClassMember}

end Decorators

section Names

variable {source file : String} {text : List Char} {n : Node} {previous : Option Node}

/-- The program that a script is read into, as far as it can be read. -/
def program? (source file : String) : Option Node :=
  match (readProgram false source.toList).found with
  | some (_, program :: _) => some program
  | _ =>
      if isTyped file then
        match (readProgram true source.toList).found with
        | some (_, program :: _) => some program
        | _ => none
      else none

/-- The class of the component in a script. -/
def classNode? (source file : String) : Option Node :=
  ((program? source file).bind (Node.classNode? source.toList)).map Prod.snd

end Names

section Metadata

variable {source file : String} {text : List Char} {md : Metadata} {c : ClassNode} {n : Node}

end Metadata

namespace LateGetter

/-- A class with a static getter, whose name is on a later line, and a public field. -/
def source : String := "export default class\x7bstatic get\nfoo()\x7b\x7d @api a\x7d"

theorem compiles : ∃ md, metadata source "a.js" = .ok md := by
  have hsome : (metadata source "a.js").toOption.isSome = true := by decide +kernel
  cases h : metadata source "a.js" with
  | ok md => exact ⟨md, rfl⟩
  | error _ =>
      rw [h] at hsome
      cases hsome

end LateGetter

end Script

end ComponentAtlas
