import ComponentAtlas.Indexing.Compile
import ComponentAtlas.Indexing.Snapshot
import ComponentAtlas.Tag.Basic
import ComponentAtlas.Workspace.Basic

/-!
# Candidates

A candidate is the file that defines a component: it stands in a folder of its own name, directly
below a namespace root. Of several such files in a folder the one with the best extension counts.
-/

namespace ComponentAtlas

/-- A file that defines a component, with the namespace of its root and its time. -/
structure Candidate where
  path : Path
  space : String
  modifiedAt : Nat
  deriving DecidableEq, Repr

namespace Candidate

/-- The file that defines the component of a folder, with its time. -/
def entryFile? (t : FileTree) (d : Dialect) (folder : Path) : Option (Path × Nat) :=
  folder.fileName?.bind fun name =>
    d.entryExtensions.findSome? fun ext =>
      let p := folder.join (name ++ "." ++ ext)
      if t.isFile p then (t.modifiedAt? p).map fun time => (p, time) else none

/-- The candidates below a namespace root; an unreadable root has none. -/
def inRoot (t : FileTree) (w : Workspace) (d : Dialect) (root : Path) : List Candidate :=
  match NamespaceRoots.subfolders t w.exclusion root with
  | .error _ => []
  | .ok folders =>
      folders.filterMap fun folder =>
        (entryFile? t d folder).map fun e => ⟨e.1, w.namespaceForRoot root d, e.2⟩

/-- The candidates of a dialect below some namespace roots. -/
def discover (t : FileTree) (w : Workspace) (d : Dialect) (r : NamespaceRoots) : List Candidate :=
  (r.forDialect d).flatMap (inRoot t w d)

/-- The tag of a candidate, if its file can be read and is a component. -/
def compile? (t : FileTree) (d : Dialect) (c : Candidate) : Option Tag := do
  let source ← (t.read c.path).toOption
  let localName ← c.path.stem?
  let m ← (d.compile source (c.path.fileName?.getD "")).toOption
  return Tag.ofMetadata ⟨c.space, localName, d.delimiter⟩ d c.path c.modifiedAt m

/-- Whether a stored tag of the same file and time can stand for a candidate. -/
def accepts (c : Candidate) (d : Dialect) (t : Tag) : Bool :=
  t.dialect == d && t.identity.space == c.space

/-- Finds a tag for each candidate: the stored one that it accepts, or else the compiled one.
The first part of each result says whether it is a stored one. -/
def resolve (t : FileTree) (d : Dialect) (stored : List Tag) (cs : List Candidate) :
    List (Bool × Option Tag) :=
  (cs.zip (Snapshot.reuse stored (cs.map fun c => (c.path, c.modifiedAt)))).map fun (c, old) =>
    match old.filter (c.accepts d) with
    | some tag => (true, some tag)
    | none => (false, c.compile? t d)

end Candidate

end ComponentAtlas
