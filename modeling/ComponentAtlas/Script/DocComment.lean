import ComponentAtlas.Text.CharClass
import ComponentAtlas.Text.Extent

/-!
# Documentation comments

A documentation comment is a block comment with two stars at its start. Its text is what is left
of its lines when the marks around them are taken away; empty lines are left out.
-/

namespace ComponentAtlas.Script

open ComponentAtlas.Text

/-- The mark at the start of a documentation comment. -/
def docOpening : List Char := ['/', '*', '*']

/-- The text without all copies of a front at its start. -/
def stripFronts (front : List Char) : Nat → List Char → List Char
  | 0, text => text
  | fuel + 1, text =>
      match stripFront? front text with
      | some rest => stripFronts front fuel rest
      | none => text

/-- The text without all copies of a front at its start; the front is not empty. -/
def trimFronts (front text : List Char) : List Char :=
  stripFronts front text.length text

/-- The text without all copies of a back at its end. -/
def trimBacks (back text : List Char) : List Char :=
  (trimFronts back.reverse text.reverse).reverse

/-- The lines of a text, without their line ends. -/
def linesOf (text : List Char) : List (List Char) :=
  match (splitAt '\n' text).reverse with
  | [] => []
  | last :: before =>
      let ended := before.reverse.map fun line =>
        if line.getLast? = some '\r' then line.dropLast else line
      if last = [] then ended else ended ++ [last]

/-- A line of a comment without the marks around it. -/
def cleanLine (line : List Char) : List Char :=
  let inner := trimBacks ['*', '/'] (trimFronts docOpening (trim isBlank line))
  trim isBlank (inner.dropWhile (· == '*'))

/-- The text of a documentation comment. -/
def cleanComment (comment : List Char) : List Char :=
  joinWith ['\n'] (((linesOf comment).map cleanLine).filter (· ≠ []))

/-- The documentation in a comment, if it is of that form and not empty. -/
def documentation? (comment : List Char) : Option String :=
  if docOpening.isPrefixOf comment then
    let text := cleanComment comment
    if text = [] then none else some (String.ofList text)
  else none

end ComponentAtlas.Script
