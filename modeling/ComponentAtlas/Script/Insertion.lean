import ComponentAtlas.Script.Lexeme
import ComponentAtlas.Text.Cursor

/-!
# Inserted semicolons

A statement may end without a semicolon at the end of the text, before a closing brace, or at a
line break that the next lexeme does not bridge. Comments count as blanks, but where a statement
could go on with an operator, a comment on the same line puts the decision off until behind it.
-/

namespace ComponentAtlas.Script

open ComponentAtlas.Text

/-- The six blanks that are skipped when a semicolon is looked for. -/
def isPlainBlank (c : Char) : Bool :=
  isSourceBlank c

/-- A break between lines; a carriage return alone is none. -/
def isBreak (c : Char) : Bool :=
  c == '\n' || c.toNat == 0x2028 || c.toNat == 0x2029

/-- Whether a text behind a line break starts with the rest of the operator `instanceof` behind
its first two letters, or the operator was `in`. -/
def goesOnWithRelation (text : List Char) : Bool :=
  if text.head?.any Char.isAlpha then
    "stanceof".toList.isPrefixOf text && !(text.drop 8).head?.any Char.isAlpha
  else true

/-- Whether a text behind a line break starts a new statement. -/
def startsStatement : List Char → Bool
  | [] => true
  | '.' :: rest => rest.head?.any Char.isDigit
  | '+' :: rest => rest.head? == some '+'
  | '-' :: rest => rest.head? == some '-'
  | '!' :: rest => rest.head? != some '='
  | 'i' :: 'n' :: rest => !goesOnWithRelation rest
  | c :: _ => !(c == backQuote || ",:;*%><=[(?^|&/".toList.contains c)

/-- What is being read between two lexemes. `broken` says that a block comment had a break. -/
inductive Gap where
  | blanks
  | inner (broken : Bool)
  | slash (broken : Bool)
  | line (broken : Bool)
  | block (broken : Bool)
  | star (broken : Bool)

/-- Whether a semicolon is inserted behind a line break. -/
def insertsBehindBreak : Gap → List Char → Bool
  | .slash _, [] => false
  | _, [] => true
  | .slash b, c :: rest =>
      if c = '/' then insertsBehindBreak (.line b) rest
      else if c = '*' then insertsBehindBreak (.block b) rest
      else false
  | .line b, c :: rest =>
      if c = '\n' then insertsBehindBreak (.inner b) rest
      else if isBreak c then startsStatement (c :: rest)
      else insertsBehindBreak (.line b) rest
  | .block b, c :: rest => insertsBehindBreak (if c = '*' then .star b else .block b) rest
  | .star b, c :: rest =>
      insertsBehindBreak (if c = '/' then .inner b else if c = '*' then .star b else .block b)
        rest
  | .blanks, c :: rest =>
      if isPlainBlank c then insertsBehindBreak .blanks rest
      else if c = '/' then insertsBehindBreak (.slash false) rest
      else startsStatement (c :: rest)
  | .inner b, c :: rest =>
      if isPlainBlank c then insertsBehindBreak (.inner b) rest
      else if c = '/' then insertsBehindBreak (.slash b) rest
      else startsStatement (c :: rest)

/-- Whether a gap with a comment decides for a semicolon by itself: where no operator can follow
it does, unless a list or an initial value goes on. -/
def endsByComment (strict : Bool) (text : List Char) : Bool :=
  strict && text.head? != some ',' && text.head? != some '='

/-- Whether a semicolon is inserted in a gap. `strict` says that no operator can follow. -/
def insertsIn (strict : Bool) : Gap → List Char → Bool
  | .blanks, [] => true
  | .slash _, [] => false
  | _, [] => strict
  | .blanks, c :: rest =>
      if c = '}' then true
      else if isBreak c then insertsBehindBreak .blanks rest
      else if isPlainBlank c then insertsIn strict .blanks rest
      else if c = '/' then insertsIn strict (.slash false) rest
      else false
  | .slash b, c :: rest =>
      if c = '/' then insertsIn strict (.line b) rest
      else if c = '*' then insertsIn strict (.block b) rest
      else false
  | .line b, c :: rest =>
      if c = '\n' then insertsIn strict (.inner b) rest
      else if isBreak c then endsByComment strict (c :: rest) || insertsBehindBreak .blanks rest
      else insertsIn strict (.line b) rest
  | .block b, c :: rest =>
      insertsIn strict (if c = '*' then .star b else .block (b || isBreak c)) rest
  | .star b, c :: rest =>
      if c = '/' then
        if rest.head? = some '/' then insertsIn strict (.inner b) rest
        else
          (b && endsByComment strict rest) ||
            match rest with
            | [] => false
            | d :: more =>
                if d = '}' then true
                else if isBreak d then insertsBehindBreak .blanks more
                else isPlainBlank d && insertsIn strict .blanks more
      else insertsIn strict (if c = '*' then .star b else .block (b || isBreak c)) rest
  | .inner b, c :: rest =>
      if isPlainBlank c then insertsIn strict (.inner b) rest
      else if c = '/' then insertsIn strict (.slash b) rest
      else endsByComment strict (c :: rest) || c == '}' ||
        isBreak c && insertsBehindBreak .blanks rest

/-- The cursor behind blanks. -/
def skipBlanks (c : Cursor) : Cursor :=
  c.skip isGapChar

/-- The place, behind none or more of the comments that come next, where a semicolon is
inserted. -/
def insertionPoint? (strict : Bool) : Nat → Cursor → Option Cursor
  | 0, _ => none
  | fuel + 1, c =>
      if insertsIn strict .blanks c.rest then some c
      else
        let next := skipBlanks c
        match comment? next.rest with
        | some run => insertionPoint? strict fuel (next.past run)
        | none => none

/-- The cursor behind blanks and comments. -/
def skipGap : Nat → Cursor → Cursor
  | 0, c => c
  | fuel + 1, c =>
      let next := skipBlanks c
      match comment? next.rest with
      | some run => skipGap fuel (next.past run)
      | none => next

end ComponentAtlas.Script
