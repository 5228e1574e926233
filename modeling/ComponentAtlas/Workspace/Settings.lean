import ComponentAtlas.Files.Tree
import ComponentAtlas.Json.Record
import ComponentAtlas.Workspace.Exclusion

/-!
# Settings

The settings file of a workspace. Every key has a default; a file that is missing, or that is
not a record of the right shape, gives the defaults for all of them.
-/

namespace ComponentAtlas

open ComponentAtlas.Json

/-- The settings of a workspace. -/
structure Settings where
  exclude : List String
  cache : Bool
  cacheRoot : String
  defaultNamespace : String
  standardNamespace : String
  writeProjectConfig : Bool
  deriving DecidableEq, Repr

namespace Settings

/-- The name of the settings file. -/
def fileName : String := "lightning-lsp.json"

/-- The settings without a file. -/
def standard : Settings :=
  ⟨Exclusion.defaultNames, true, ".sfdx", "c", "lightning", true⟩

/-- The keys of the settings file, in the order of their places in an array. -/
def keys : List String :=
  ["exclude", "cache", "cacheRoot", "defaultNamespace", "standardNamespace",
    "writeProjectConfig"]

/-- Reads settings; a key that is missing has its default. -/
def read? (text : String) : Option Settings := do
  let v ← (readLocated text).toOption
  let r ← Record.ofLocated? keys v
  return {
    exclude := ← r.orDefault? "exclude" standard.exclude (Located.items? Located.string?)
    cache := ← r.orDefault? "cache" standard.cache Located.bool?
    cacheRoot := ← r.orDefault? "cacheRoot" standard.cacheRoot Located.string?
    defaultNamespace := ← r.orDefault? "defaultNamespace" standard.defaultNamespace
      Located.string?
    standardNamespace := ← r.orDefault? "standardNamespace" standard.standardNamespace
      Located.string?
    writeProjectConfig := ← r.orDefault? "writeProjectConfig" standard.writeProjectConfig
      Located.bool? }

/-- The settings in a folder. -/
def ofFolder (t : FileTree) (folder : Path) : Settings :=
  ((t.read (folder.join fileName)).toOption.bind read?).getD standard

/-- The exclusion of settings; a bad pattern gives the exclusion of the default names. -/
def exclusion (s : Settings) : Exclusion :=
  match Exclusion.read s.exclude with
  | .ok e => e
  | .error _ => .standard

end Settings

end ComponentAtlas
