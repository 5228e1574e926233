import ComponentAtlas.Text.CharClass
import ComponentAtlas.Text.Extent

/-!
# Lexemes of scripts

A lexeme is the longest front of a text that is one word, number, string or sign. Each reader
gives the characters of the lexeme at the start of a text, or nothing when there is none.
-/

namespace ComponentAtlas.Script

open ComponentAtlas.Text

/-- The back quote, which encloses templates. -/
def backQuote : Char := Char.ofNat 0x60

/-- The single quote. -/
def singleQuote : Char := Char.ofNat 0x27

/-- A character that ends a line. -/
def isLineEnd (c : Char) : Bool :=
  c == '\n' || c == '\r' || c.toNat == 0x2028 || c.toNat == 0x2029

/-- A blank between lexemes: white space, or a mark without width. -/
def isGapChar (c : Char) : Bool :=
  isBlank c || c.toNat == 0xFEFF || c.toNat == 0x2060 || c.toNat == 0x200B

/-- The characters that are signs and stand in no word. -/
def signs : List Char :=
  ":;\"@#.,|^&<=>+-*/\\%?!~()[]\x7b\x7d".toList ++ [backQuote, singleQuote]

/-- A character of a word. -/
def isNameChar (c : Char) : Bool :=
  0x20 ≤ c.toNat && !isGapChar c && !signs.contains c

/-- A hexadecimal digit. -/
def isHexDigit (c : Char) : Bool :=
  c.isDigit || ('a' ≤ c && c ≤ 'f') || ('A' ≤ c && c ≤ 'F')

/-- A digit below a base up to ten. -/
def isDigitBelow (base : Nat) (c : Char) : Bool :=
  c.isDigit && c.toNat < '0'.toNat + base

/-- The length of the escape of a code point behind its backslash. -/
def codePointLength? : List Char → Option Nat
  | 'u' :: '{' :: rest =>
      let digits := rest.takeWhile isHexDigit
      if digits ≠ [] ∧ (rest.drop digits.length).head? = some '}' then some (digits.length + 3)
      else none
  | 'u' :: rest =>
      if (rest.take 4).length = 4 ∧ (rest.take 4).all isHexDigit then some 5 else none
  | _ => none

/-- The length of an escape in a string behind its backslash. -/
def escapeLength? : List Char → Option Nat
  | [] => none
  | 'u' :: rest => codePointLength? ('u' :: rest)
  | 'x' :: rest =>
      if (rest.take 2).length = 2 ∧ (rest.take 2).all isHexDigit then some 3 else none
  | c :: rest =>
      if isDigitBelow 8 c then some ((rest.take 2).takeWhile (isDigitBelow 8)).length.succ
      else if (c = '\r' ∨ c = '?') ∧ rest.head?.any (fun d => isLineEnd d && d != '\r') = true then
        some 2
      else some 1

/-- The characters of a word from some place in it on; the first `held` of them are taken as they
are, because they belong to an escape. -/
def nameRun : Nat → List Char → List Char
  | _, [] => []
  | held + 1, c :: rest => c :: nameRun held rest
  | 0, c :: rest =>
      if c = '\\' then
        match codePointLength? rest with
        | some n => c :: nameRun n rest
        | none => []
      else if isNameChar c then c :: nameRun 0 rest
      else []

/-- The word at the start of a text. -/
def word? (text : List Char) : Option (List Char) :=
  let run := nameRun 0 text
  if run = [] ∨ run.head?.any Char.isDigit = true then none else some run

/-- The private name at the start of a text: a word behind a hash. -/
def privateName? : List Char → Option (List Char)
  | '#' :: rest => (word? rest).map ('#' :: ·)
  | _ => none

/-- The characters of a string up to the closing quote and with it; the first `held` of them are
taken as they are. -/
def stringRun? (quote : Char) : Nat → List Char → Option (List Char)
  | _, [] => none
  | held + 1, c :: rest => (stringRun? quote held rest).map (c :: ·)
  | 0, c :: rest =>
      if c = quote then some [c]
      else if c = '\\' then
        match escapeLength? rest with
        | some n => (stringRun? quote n rest).map (c :: ·)
        | none => none
      else if c = '\n' ∨ c = '\r' then none
      else (stringRun? quote 0 rest).map (c :: ·)

/-- The string at the start of a text. -/
def string? : List Char → Option (List Char)
  | c :: rest =>
      if c = '"' ∨ c = singleQuote then (stringRun? c 0 rest).map (c :: ·) else none
  | [] => none

/-- The characters of a template up to a closing quote or a substitution; the first `held` of
them are taken as they are. -/
def templateRun : Nat → List Char → List Char
  | _, [] => []
  | held + 1, c :: rest => c :: templateRun held rest
  | 0, c :: rest =>
      if c = backQuote then []
      else if c = '$' ∧ rest.head? = some '{' then []
      else if c = '\\' then
        match escapeLength? rest with
        | some n => c :: templateRun n rest
        | none => []
      else c :: templateRun 0 rest

/-- The piece of text in a template at the start of a text. -/
def templateText? (text : List Char) : Option (List Char) :=
  let run := templateRun 0 text
  if run = [] then none else some run

/-- Where the pattern of a regular expression is read: outside of a class, in one, or behind a
backslash in either. -/
inductive PatternPlace where
  | plain
  | inClass
  | escaped (inClass : Bool)

/-- The characters of a pattern up to its closing slash and with it. -/
def patternRun? : PatternPlace → List Char → Option (List Char)
  | _, [] => none
  | place, c :: rest =>
      if c = '\n' then none
      else
        match place with
        | .escaped true => (patternRun? .inClass rest).map (c :: ·)
        | .escaped false => (patternRun? .plain rest).map (c :: ·)
        | .inClass =>
            let next : PatternPlace :=
              if c = ']' then .plain else if c = '\\' then .escaped true else .inClass
            (patternRun? next rest).map (c :: ·)
        | .plain =>
            if c = '/' then some [c]
            else
              let next : PatternPlace :=
                if c = '[' then .inClass else if c = '\\' then .escaped false else .plain
              (patternRun? next rest).map (c :: ·)

/-- The regular expression at the start of a text, with its flags. -/
def pattern? : List Char → Option (List Char)
  | '/' :: rest =>
      match patternRun? .plain rest with
      | none => none
      | some run =>
          if run.length < 2 then none
          else
            let flags := (rest.drop run.length).takeWhile fun c => 'a' ≤ c && c ≤ 'z'
            some ('/' :: run ++ flags)
  | _ => none

/-- A run of digits in which single underscores may stand between two digits. -/
def digitRun (p : Char → Bool) : List Char → List Char
  | [] => []
  | c :: rest =>
      if p c then c :: digitRun p rest
      else if c = '_' then
        match rest with
        | d :: _ => if p d then c :: digitRun p rest else []
        | [] => []
      else []

/-- A run of digits that starts with a digit. -/
def digits (p : Char → Bool) (text : List Char) : List Char :=
  if text.head?.any p then digitRun p text else []

/-- The exponent at the start of a text. -/
def exponent (text : List Char) : List Char :=
  match text with
  | e :: rest =>
      if e = 'e' ∨ e = 'E' then
        let sign := (rest.take 1).filter fun c => c == '+' || c == '-'
        let run := digits Char.isDigit (rest.drop sign.length)
        if run = [] then [] else e :: sign ++ run
      else []
  | [] => []

/-- The digits of a number in a base that its second character names. -/
def basedDigits : List Char → List Char
  | '0' :: mark :: rest =>
      if mark = 'x' ∨ mark = 'X' then digits isHexDigit rest
      else if mark = 'o' ∨ mark = 'O' then digits (isDigitBelow 8) rest
      else if mark = 'b' ∨ mark = 'B' then digits (isDigitBelow 2) rest
      else []
  | _ => []

/-- The mark of a big integer at the start of a text. -/
def bigMark (text : List Char) : List Char :=
  (text.take 1).filter (· == 'n')

/-- The decimal number at the start of a text. -/
def decimal? (text : List Char) : Option (List Char) :=
  let whole := digits Char.isDigit text
  let afterWhole := text.drop whole.length
  match afterWhole with
  | '.' :: rest =>
      let fraction := digits Char.isDigit rest
      if whole = [] ∧ fraction = [] then none
      else some (whole ++ '.' :: fraction ++ exponent (rest.drop fraction.length))
  | _ =>
      if whole = [] then none
      else
        let tail := exponent afterWhole
        some (whole ++ if tail = [] then bigMark afterWhole else tail)

/-- The number at the start of a text. -/
def number? (text : List Char) : Option (List Char) :=
  let based := basedDigits text
  if based ≠ [] then
    let front := text.take (2 + based.length)
    some (front ++ bigMark (text.drop front.length))
  else decimal? text

/-- The signs of more than one character, longest first. -/
def longSigns : List String :=
  [">>>=", "===", "!==", "**=", "<<=", ">>=", ">>>", "&&=", "||=", "??=", "...", "=>", "==", "!=",
    "<=", ">=", "&&", "||", "??", "?.", "++", "--", "+=", "-=", "*=", "/=", "%=", "&=", "|=", "^=",
    "<<", ">>", "**"]

/-- Whether a sign stands at the start of a text. A question mark before a fraction is not part
of a chain. -/
def signFits (text : List Char) (sign : String) : Bool :=
  sign.toList.isPrefixOf text &&
    !(sign == "?." && (text.drop 2).head?.any Char.isDigit)

/-- The longest sign at the start of a text. -/
def sign? (text : List Char) : Option (List Char) :=
  match longSigns.find? (signFits text) with
  | some s => some s.toList
  | none =>
      match text with
      | c :: _ => if signs.contains c then some [c] else none
      | [] => none

/-- The comment at the start of a text: to the end of the line, or up to a closing mark. -/
def comment? : List Char → Option (List Char)
  | '/' :: '/' :: rest => some ('/' :: '/' :: rest.takeWhile fun c => !isLineEnd c)
  | '/' :: '*' :: rest => (blockRun? false rest).map fun run => '/' :: '*' :: run
  | _ => none
where
  /-- The characters of a block up to its closing mark; `star` says that a star came before. -/
  blockRun? : Bool → List Char → Option (List Char)
    | _, [] => none
    | star, c :: rest =>
        if star ∧ c = '/' then some [c] else (blockRun? (c == '*') rest).map (c :: ·)

/-- The markup comment at the start of a text, which ends with the line. -/
def markupComment? (text : List Char) : Option (List Char) :=
  if "<!--".toList.isPrefixOf text ∨ "-->".toList.isPrefixOf text then
    some (text.takeWhile fun c => c == '\r' || !isLineEnd c)
  else none

/-- The text between tags at the start of a text. -/
def tagText? (text : List Char) : Option (List Char) :=
  let run := text.takeWhile fun c => !"\x7b\x7d<>".toList.contains c
  if run = [] then none else some run

/-- The name of a tag or of its attribute at the start of a text. -/
def tagName? (text : List Char) : Option (List Char) :=
  let run := text.takeWhile fun c => isNameChar c || c == '-' || c == '.' || c == ':'
  if run = [] ∨ run.head?.any (fun c => c.isDigit || !isNameChar c) = true then none else some run

/-- The value of an attribute in quotes at the start of a text; it may go over lines. -/
def tagValue? : List Char → Option (List Char)
  | c :: rest =>
      if c = '"' ∨ c = singleQuote then
        let run := rest.takeWhile (· != c)
        if (rest.drop run.length).isEmpty then none else some (c :: run ++ [c])
      else none
  | [] => none

end ComponentAtlas.Script
