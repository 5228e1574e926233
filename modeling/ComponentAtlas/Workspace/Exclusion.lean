import ComponentAtlas.Glob.Match
import ComponentAtlas.Path.Basic

/-!
# Excluded folders

Folders whose own name matches one of a list of patterns are not searched. The names of the
folders around a folder do not count.
-/

namespace ComponentAtlas

open ComponentAtlas.Glob

/-- The patterns of the names that are left out. -/
structure Exclusion where
  patterns : List Pattern
  deriving Repr

/-- A pattern that cannot be read, and why. -/
structure ExclusionError where
  pattern : String
  cause : PatternError
  deriving DecidableEq, Repr

/-- The wording of an exclusion error. -/
def ExclusionError.message (e : ExclusionError) : String :=
  "Invalid exclude pattern '" ++ e.pattern ++ "': error parsing glob '" ++ e.pattern ++ "': " ++
    e.cause.message

namespace Exclusion

/-- The names that are left out unless settings say otherwise. -/
def defaultNames : List String :=
  ["node_modules", "bin", "target", "jest-modules", "repository", ".git", ".sfdx",
    ".localdevserver", ".vscode", "dist", "build"]

/-- Reads patterns; the first bad one is the error. -/
def read : List String → Except ExclusionError Exclusion
  | [] => .ok ⟨[]⟩
  | text :: rest =>
      match Pattern.read text with
      | .error cause => .error ⟨text, cause⟩
      | .ok pattern => (read rest).map fun e => ⟨pattern :: e.patterns⟩

/-- The exclusion of the default names. -/
def standard : Exclusion :=
  match read defaultNames with
  | .ok e => e
  | .error _ => ⟨[]⟩

/-- Whether a name matches one of the patterns. -/
def matchesName (e : Exclusion) (name : String) : Bool :=
  e.patterns.any fun pattern => pattern.matchesName name

/-- Whether the last name of a path matches one of the patterns. -/
def excludes (e : Exclusion) (p : Path) : Bool :=
  p.fileName?.any e.matchesName

/-- Whether one of the names in a list of steps matches one of the patterns. -/
def excludesStep (e : Exclusion) (steps : List Step) : Bool :=
  steps.any fun
    | .name s => e.matchesName s
    | _ => false

end Exclusion

end ComponentAtlas
