import ComponentAtlas.Script.Lexeme

/-!
# Names with types

A tolerant reading meets lexemes around the name of a member that mean nothing to it: words in
front of the name, and an annotation behind a colon. Passing over lexemes has a price, and a
reading that has to choose between a word in front of a colon and the one behind it takes for
the name the one that is dearer to pass over.
-/

namespace ComponentAtlas.Script

open ComponentAtlas.Text

/-- A lexeme with its range of bytes. `broken` says that a line ends in front of it. -/
structure Piece where
  text : List Char
  start : Nat
  stop : Nat
  broken : Bool
  deriving DecidableEq, Repr

namespace Piece

/-- The words that the language keeps for itself and that name no member of a tolerant reading. -/
def keptWords : List String :=
  ["import", "from", "default", "as", "var", "const", "else", "if", "switch", "for", "await", "in",
    "of", "while", "do", "try", "with", "break", "continue", "debugger", "return", "throw", "case",
    "catch", "finally", "yield", "class", "extends", "function", "new", "typeof", "void", "delete",
    "instanceof", "super", "true", "false", "null", "undefined", "this"]

/-- Whether a piece is a sign. -/
def isSign (p : Piece) (sign : String) : Bool := p.text == sign.toList

/-- Whether a piece can be the name of a member. -/
def isName (p : Piece) : Bool :=
  ((word? p.text).isSome && !keptWords.contains (String.ofList p.text)) ||
    (privateName? p.text).isSome || (string? p.text).isSome || (number? p.text).isSome

/-- Whether a value, parameters or the end of a field follow. -/
def endsMark (p : Piece) : Bool := p.isSign ";" || p.isSign "=" || p.isSign "("

/-- Whether nothing that belongs to a name can follow. -/
def isLast (p : Piece) : Bool := p.endsMark || p.isSign "\x7b" || p.isSign "\x7d"

/-- The lexeme of a piece at the start of a text. -/
def lexeme? (text : List Char) : Option (List Char) :=
  word? text <|> privateName? text <|> string? text <|> number? text <|> sign? text

/-- The pieces of a text up to the first behind which there is no more of a name, from an offset
on. -/
def listFrom : Nat → Nat → List Char → List Piece
  | 0, _, _ => []
  | fuel + 1, offset, text =>
      let gap := text.takeWhile isGapChar
      let body := text.drop gap.length
      match lexeme? body with
      | none => []
      | some run =>
          let start := offset + byteSize gap
          let p : Piece := ⟨run, start, start + byteSize run, gap.any isLineEnd⟩
          if p.isLast then [p] else p :: listFrom fuel p.stop (body.drop run.length)

/-- The pieces at the start of a text. -/
def list (text : List Char) : List Piece := listFrom text.length 0 text

/-- The price of passing over some lexemes that take so many bytes. -/
def price (lexemes bytes : Nat) : Nat := 500 + 100 * lexemes + bytes

/-- The price of a semicolon that is missing. -/
def semicolonPrice : Nat := 610

/-- Whether a field ends in front of the pieces without a semicolon. -/
def endHere : List Piece → Bool
  | [] => true
  | p :: _ => p.broken || p.isSign "\x7d"

/-- The place where the search for a name stands: the name so far, how many lexemes were passed
over in front of it and at what price, and how many behind it from where to where. `bare` says
that a field may end behind the name although the semicolon is missing. -/
structure Search where
  bare : Bool
  name : Piece
  passed : Nat
  paid : Nat
  behind : Nat
  start : Nat
  stop : Nat

/-- The search that starts with a name. -/
def Search.ofName (bare : Bool) (name : Piece) (passed paid : Nat) : Search :=
  ⟨bare, name, passed, paid, 0, name.stop, name.stop⟩

/-- Finds the name among pieces, and whether the field ends behind it. -/
def search (s : Search) : List Piece → Piece × Bool
  | [] => (s.name, false)
  | p :: rest =>
      let front := price (s.passed + 1 + s.behind) s.stop
      let start := if s.behind = 0 then p.start else s.start
      let back := s.paid + price (s.behind + 1) (p.stop - start)
      let next : Search := { s with bare := false, behind := s.behind + 1, start, stop := p.stop }
      if p.isLast || (s.behind = 0 && p.broken) then (s.name, false)
      else if !p.isName then search next rest
      else if s.bare && s.behind = 0 then
        if semicolonPrice < back || endHere rest then (s.name, true) else search next rest
      else if front < back || endHere rest then
        search (.ofName false p (s.passed + 1 + s.behind) front) rest
      else search next rest

/-- The name at the start of a text or among the lexemes behind it, and whether its field ends
there. -/
def nameOf? (bare : Bool) (text : List Char) : Option (Piece × Bool) :=
  match list text with
  | p :: rest => if p.isName then some (search (.ofName bare p 0 0) rest) else none
  | [] => none

end Piece

/-- What is passed over in front of a name. -/
def passedName? (bare : Bool) (text : List Char) : Option (List Char) :=
  match Piece.nameOf? bare text with
  | some (name, _) => if 0 < name.start then some (takeBytes name.start text) else none
  | none => none

/-- The name of a field that ends behind it although the semicolon is missing. -/
def bareName? (text : List Char) : Option (List Char) :=
  match Piece.nameOf? true text with
  | some (name, ends) => if ends ∧ name.start = 0 then some name.text else none
  | none => none

/-- What is passed over behind a name or value, up to a sign that it could have been followed by
on its line. -/
def typeMark? (text : List Char) : Option (List Char) :=
  let pieces := Piece.list text
  let passed := pieces.takeWhile fun p => !p.isLast
  match passed.head?, passed.getLast?, pieces.getLast? with
  | some first, some last, some next =>
      if next.endsMark ∧ first.broken = false then some (takeBytes last.stop text) else none
  | _, _, _ => none

end ComponentAtlas.Script
