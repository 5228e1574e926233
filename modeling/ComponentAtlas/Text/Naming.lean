import ComponentAtlas.Text.LetterCase

/-!
# Naming conventions

Local names are written in camel case in sources and with hyphens in markup. The two
conversions work character by character, and `flipConvention` picks the one that applies.
-/

namespace ComponentAtlas.Text

/-- Each upper-case character is lowered, with a hyphen in front of it. -/
def hyphenateRest : List Char → List Char
  | [] => []
  | c :: rest =>
      (if isUpperCase c then '-' :: lowerForm c else [c]) ++ hyphenateRest rest

/-- The hyphenated spelling of a camel-case name: its first character gets no hyphen. -/
def hyphenate : List Char → List Char
  | [] => []
  | c :: rest => (if isUpperCase c then lowerForm c else [c]) ++ hyphenateRest rest

/-- Camel case from a given point, where `raised` says that a hyphen came just before. -/
def camelizeFrom (raised : Bool) : List Char → List Char
  | [] => []
  | c :: rest =>
      if c = '-' then camelizeFrom true rest
      else (if raised then upperForm c else [c]) ++ camelizeFrom false rest

/-- The camel-case spelling of a hyphenated name. -/
def camelize (name : List Char) : List Char :=
  camelizeFrom false name

/-- Camel case to hyphens: `myWidget` becomes `my-widget`. -/
def kebabOfCamel (name : String) : String :=
  String.ofList (hyphenate name.toList)

/-- Hyphens to camel case: `my-widget` becomes `myWidget`. -/
def camelOfKebab (name : String) : String :=
  String.ofList (camelize name.toList)

/-- A name with a hyphen goes to camel case, any other gets hyphens. -/
def flipConvention (name : String) : String :=
  if name.toList.contains '-' then camelOfKebab name else kebabOfCamel name

end ComponentAtlas.Text
