import ComponentAtlas.Json.Merge
import ComponentAtlas.Json.Printer
import ComponentAtlas.Session.Pass

/-!
# Derived configuration

Editors find modules and lint rules through configuration files next to each namespace root of
web components, and through the editor settings at the first root of the workspace. These files
are made from the index by merging into what is there; a file that cannot be read is left alone
and reported.
-/

namespace ComponentAtlas

open ComponentAtlas.Json

/-- What was done with the derived files. -/
structure ConfigReport where
  written : List Path := []
  unchanged : List Path := []
  errors : List ConfigError := []
  deriving Repr

namespace DerivedConfig

/-- The entry of a component in the module paths of a root, if it belongs to that root. -/
def modulePath? (root : Path) (t : Tag) : Option (String × Value) :=
  if t.file.grandparent?.any root.same then
    (t.file.relativeTo? root).map fun relative =>
      (t.identity.moduleSpecifier, .array [.string relative])
  else none

/-- The module paths of a root. -/
def modulePaths (r : Registry) (root : Path) : Fields :=
  Fields.ofPairs (r.owned.filterMap (modulePath? root))

/-- The module configuration of a root. -/
def moduleData (r : Registry) (root : Path) : Value :=
  .object [
    ("compilerOptions", .object [("experimentalDecorators", .bool true),
      ("baseUrl", .string "."), ("paths", .object (modulePaths r root))]),
    ("include", .array [.string "**/*"])]

/-- The lint configuration of a root. -/
def lintData : Value :=
  .object [("extends", .array [.string "@salesforce/eslint-config-lwc/recommended"])]

/-- The editor settings: aura markup is markup, and snapshots are not searched. -/
def editorData (s : Settings) : Value :=
  .object [
    ("files.associations", .object (Dialect.aura.markupExtensions.map fun ext =>
      ("*." ++ ext, .string "html"))),
    ("search.exclude", .object [(s.cacheRoot ++ "/**", .bool true)])]

/-- The file of the module configuration of a root: that of typed sources if it is there. -/
def moduleFile (t : FileTree) (root : Path) : Path :=
  let typed := root.join "tsconfig.json"
  if t.holds typed then typed else root.join "jsconfig.json"

/-- The value in a file, if the file is there. -/
def readFile (t : FileTree) (p : Path) : Except ConfigError (Option Value) :=
  match t.read p with
  | .error .notFound => .ok none
  | .error cause => .error (.unreadable p cause)
  | .ok text =>
      match Json.read text with
      | .ok v => .ok (some v)
      | .error e => .error (.malformed p (e.message text))

/-- What merging data into a file writes there: the merged value, or nothing if the file stays as it
is. -/
def plan (t : FileTree) (p : Path) (data : Value) : Except ConfigError (Option Value) := do
  let existing ← readFile t p
  let (merged, changed) := (existing.getD (.object [])).merge data
  .ok (if changed || existing.isNone then some merged else none)

/-- The tree with the folders around a file, if they can be made. -/
def makeParent (t : FileTree) (p : Path) : Except FileError FileTree :=
  match p.parent? with
  | some folder => t.createFolders folder
  | none => .ok t

/-- Writes a value into a file, with the folders around it. The folders stay if the file cannot be
written. -/
def writeFile (t : FileTree) (p : Path) (v : Value) : FileTree × Except FileError Unit :=
  match makeParent t p with
  | .error cause => (t, .error cause)
  | .ok t =>
      match t.write p (v.pretty ++ "\n") with
      | .error cause => (t, .error cause)
      | .ok t => (t, .ok ())

/-- Merges data into a file. The result says whether the file was written. -/
def mergeInto (t : FileTree) (p : Path) (data : Value) : FileTree × Except ConfigError Bool :=
  match plan t p data with
  | .error e => (t, .error e)
  | .ok none => (t, .ok false)
  | .ok (some v) =>
      let (t, result) := writeFile t p v
      (t, match result with
        | .ok () => .ok true
        | .error cause => .error (.unreadable p cause))

/-- What a derived file is made for: the modules or the lint rules of a root, or the editor. -/
inductive Target where
  | modules (root : Path)
  | lint (root : Path)
  | editor (first : Path)
  deriving DecidableEq, Repr

namespace Target

/-- The file of a target. Whether a root has typed sources is looked up in the tree. -/
def file (t : FileTree) : Target → Path
  | modules root => moduleFile t root
  | lint root => root.join ".eslintrc.json"
  | editor first => first.join ".vscode/settings.json"

/-- The generated data of a target. -/
def data (r : Registry) (s : Settings) : Target → Value
  | modules root => moduleData r root
  | lint _ => lintData
  | editor _ => editorData s

end Target

/-- The targets of a workspace with the given namespace roots. -/
def targets (w : Workspace) (roots : NamespaceRoots) : List Target :=
  roots.lwc.flatMap (fun root => [.modules root, .lint root]) ++
    (w.roots.head?.map Target.editor).toList

/-- The report with one more file. -/
def record (report : ConfigReport) (file : Path) :
    Except ConfigError Bool → ConfigReport
  | .ok true => { report with written := report.written ++ [file] }
  | .ok false => { report with unchanged := report.unchanged ++ [file] }
  | .error e => { report with errors := report.errors ++ [e] }

/-- The tree and the report after one more target. -/
def addTarget (data : Target → Value) (state : FileTree × ConfigReport) (target : Target) :
    FileTree × ConfigReport :=
  let file := target.file state.1
  let (t, result) := mergeInto state.1 file (data target)
  (t, record state.2 file result)

/-- Writes the files of some targets one after the other. -/
def writeAll (data : Target → Value) (t : FileTree) (targets : List Target) :
    FileTree × ConfigReport :=
  targets.foldl (addTarget data) (t, {})

end DerivedConfig

namespace Project

/-- The generated data of the targets of a project. -/
def targetData (p : Project) : DerivedConfig.Target → Value :=
  DerivedConfig.Target.data (p.index.registry .lwc) p.session.workspace.settings

/-- Writes the derived files. It fails only if the namespace roots cannot be had. -/
def writeDerived (p : Project) : Attempt ConfigReport :=
  let p := p.remember
  match p.namespaceRoots with
  | .error e => (p, .error e)
  | .ok roots =>
      let targets := DerivedConfig.targets p.session.workspace roots
      let (t, report) := DerivedConfig.writeAll p.targetData p.files targets
      ({ p with files := t }, .ok report)

/-- Writes the derived files, unless the settings forbid it. -/
def writeConfig (p : Project) : Attempt ConfigReport :=
  if p.session.workspace.settings.writeProjectConfig then p.writeDerived else (p, .ok {})

end Project

end ComponentAtlas
