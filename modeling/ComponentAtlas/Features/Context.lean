import ComponentAtlas.Text.CharClass
import ComponentAtlas.Text.Position

/-!
# The context of a completion

What is being typed is told from the text in front of the cursor alone: inside an open brace it
is an expression, behind an open angle bracket a tag name or, after a blank, an attribute name.
-/

namespace ComponentAtlas

open ComponentAtlas.Text

/-- What is being typed, with the part that is there already. -/
inductive CompletionContext where
  | tagName (typed : String)
  | attributeName (tag typed : String)
  | expression (typed : String)
  | text
  deriving DecidableEq, Repr

namespace CompletionContext

/-- The characters behind the last occurrence of one, if there is any. -/
def behindLast? (c : Char) (text : List Char) : Option (List Char) :=
  if text.contains c then some (text.reverse.takeWhile (· != c)).reverse else none

/-- The characters of an expression that belong to the name at its end. -/
def isNamePart (c : Char) : Bool :=
  isLetterOrNumber c || c == '_' || c == '$'

/-- The longest end of a text whose characters pass a test. -/
def endingWhile (p : Char → Bool) (text : List Char) : List Char :=
  (text.reverse.takeWhile p).reverse

/-- The context behind an open angle bracket, given what follows the bracket. -/
def inTag (inner : List Char) : CompletionContext :=
  match inner with
  | '/' :: _ => .text
  | '!' :: _ => .text
  | '?' :: _ => .text
  | _ =>
      if !inner.any isBlank then .tagName (String.ofList inner)
      else if inner.count '"' % 2 = 1 ∨ inner.count (Char.ofNat 0x27) % 2 = 1 then .text
      else
        let typed := endingWhile (fun c => !isBlank c) inner
        if typed.contains '=' then .text
        else
          let tag := (inner.dropWhile isBlank).takeWhile fun c => !isBlank c
          .attributeName (String.ofList tag) (String.ofList typed)

/-- The context behind a text. -/
def behind (before : List Char) : CompletionContext :=
  let expression := (behindLast? '\x7b' before).filter fun inner =>
    !inner.any fun c => c == '\x7d' || c == '<' || c == '>'
  match expression with
  | some inner => .expression (String.ofList (endingWhile isNamePart inner))
  | none =>
      match behindLast? '<' before with
      | none => .text
      | some inner => if inner.contains '>' then .text else inTag inner

/-- The context at a byte offset of a text. -/
def ofOffset (text : List Char) (offset : Nat) : CompletionContext :=
  behind (takeBytes offset text)

end CompletionContext

end ComponentAtlas
