import ComponentAtlas.Files.Tree
import ComponentAtlas.Json.Shape

/-!
# The project manifest

The manifest of a package set names the folders of its packages. A workspace of that kind cannot
be searched when the manifest is missing, unreadable or of the wrong shape.
-/

namespace ComponentAtlas

open ComponentAtlas.Json

/-- Why a file of the project cannot be used. -/
inductive ConfigError where
  | unreadable (path : Path) (cause : FileError)
  | malformed (path : Path) (report : String)
  | missing (path : Path)
  deriving DecidableEq, Repr

/-- The wording of a configuration error. -/
def ConfigError.message : ConfigError → String
  | .unreadable path cause => "IO error on " ++ path.text ++ ": " ++ cause.message
  | .malformed path report => "Malformed " ++ path.text ++ ": " ++ report
  | .missing path => "Project manifest not found: " ++ path.text

/-- The folders of the packages of a project, as written in its manifest. -/
structure Manifest where
  packages : List String
  deriving DecidableEq, Repr

namespace Manifest

/-- The name of the manifest. -/
def fileName : String := "sfdx-project.json"

/-- Reads an entry of the list of packages: the value of its path. -/
def readPackage : Located → Except ReadError String
  | .object _ stop fields => do
      match ← Located.field? "path" Located.asString none fields with
      | some path => .ok path
      | none => .error ⟨.shape "missing field `path`", stop⟩
  | .array _ _ [v] => v.asString
  | .array _ stop [] =>
      .error ⟨.shape "invalid length 0, expected struct PackageDirectory with 1 element", stop⟩
  | .array _ stop _ => .error ⟨.trailingCharacters, stop⟩
  | v => v.mismatch "struct PackageDirectory"

/-- Reads a manifest; without a list of packages it has none. -/
def ofLocated : Located → Except ReadError Manifest
  | .object _ _ fields => do
      let packages ← Located.field? "packageDirectories" (Located.asItems readPackage) none fields
      .ok ⟨packages.getD []⟩
  | .array _ _ [] => .ok ⟨[]⟩
  | .array _ _ [v] => (v.asItems readPackage).map Manifest.mk
  | .array _ stop _ => .error ⟨.trailingCharacters, stop⟩
  | v => v.mismatch "struct SfdxProject"

/-- Reads the text of a manifest. -/
def read (text : String) : Except ReadError Manifest := do
  ofLocated (← readLocated text)

/-- The manifest in a folder. -/
def ofFolder (t : FileTree) (folder : Path) : Except ConfigError Manifest :=
  let path := folder.join fileName
  if t.holds path then
    match t.read path with
    | .error cause => .error (.unreadable path cause)
    | .ok text =>
        match read text with
        | .error e => .error (.malformed path (e.message text))
        | .ok m => .ok m
  else .error (.missing path)

/-- The folders of the packages of a project in a folder, in the order of the manifest. -/
def folders (m : Manifest) (folder : Path) : List Path :=
  m.packages.map folder.join

end Manifest

end ComponentAtlas
