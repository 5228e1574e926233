import ComponentAtlas.Path.Basic

/-!
# Dialects

Components are written in one of two dialects of markup. A dialect fixes the delimiter of its
tags and the extensions of its files.
-/

namespace ComponentAtlas

/-- The mark between the namespace and the local name of a tag. -/
inductive Delimiter where
  | colon
  | hyphen
  deriving DecidableEq, Repr

namespace Delimiter

/-- The character of a delimiter. -/
def char : Delimiter → Char
  | .colon => ':'
  | .hyphen => '-'

/-- The word for a delimiter in stored tags. -/
def word : Delimiter → String
  | .colon => "colon"
  | .hyphen => "hyphen"

/-- The delimiter of a word. -/
def ofWord? (word : String) : Option Delimiter :=
  [colon, hyphen].find? fun d => d.word == word

theorem ofWord?_word (d : Delimiter) : ofWord? d.word = some d := by
  cases d <;> decide

end Delimiter

/-- The two dialects: web components with a template and a script, and aura markup. -/
inductive Dialect where
  | lwc
  | aura
  deriving DecidableEq, Repr

namespace Dialect

/-- Both dialects, in the order in which they are asked. -/
def all : List Dialect := [.lwc, .aura]

/-- The word for a dialect: also the name of the folder that is reserved for it. -/
def word : Dialect → String
  | .lwc => "lwc"
  | .aura => "aura"

/-- The dialect of a word. -/
def ofWord? (word : String) : Option Dialect :=
  all.find? fun d => d.word == word

theorem ofWord?_word (d : Dialect) : ofWord? d.word = some d := by
  cases d <;> decide

/-- The delimiter of tags in a dialect. -/
def delimiter : Dialect → Delimiter
  | .lwc => .hyphen
  | .aura => .colon

/-- The extensions of the file that defines a component, best first. -/
def entryExtensions : Dialect → List String
  | .lwc => ["js", "ts"]
  | .aura => ["app", "cmp", "intf", "evt", "lib"]

/-- The extensions of markup files. -/
def markupExtensions : Dialect → List String
  | .lwc => ["html"]
  | .aura => ["app", "cmp", "intf", "evt", "lib"]

/-- The dialect of a markup file, by its extension. -/
def ofMarkupFile? (p : Path) : Option Dialect :=
  p.extension?.bind fun ext => all.find? fun d => d.markupExtensions.contains ext

end Dialect

end ComponentAtlas
