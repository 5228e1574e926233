import ComponentAtlas.Tag.Dialect
import ComponentAtlas.Workspace.Exclusion
import ComponentAtlas.Workspace.Kind

/-!
# Namespace roots

A namespace root is a folder whose subfolders hold components. It is recognised by its name or by
a component in one of its subfolders, and the search does not go on inside of it. Where the
search starts and how deep it goes depends on the kind of the workspace.
-/

namespace ComponentAtlas

/-- The namespace roots of both dialects, in the order in which they are found. -/
structure NamespaceRoots where
  lwc : List Path
  aura : List Path
  deriving DecidableEq, Repr

namespace NamespaceRoots

/-- The roots of a dialect. -/
def forDialect (r : NamespaceRoots) : Dialect → List Path
  | .lwc => r.lwc
  | .aura => r.aura

/-- Whether a folder is a root of a dialect. -/
def contains (r : NamespaceRoots) (d : Dialect) (folder : Path) : Bool :=
  (r.forDialect d).any folder.same

/-- Whether there are no roots. -/
def isEmpty (r : NamespaceRoots) : Bool :=
  r.lwc.isEmpty && r.aura.isEmpty

/-- The roots in a list of findings. -/
def ofFound (found : List (Dialect × Path)) : NamespaceRoots :=
  let of (d : Dialect) : List Path :=
    found.filterMap fun f => if f.1 = d then some f.2 else none
  ⟨of .lwc, of .aura⟩

/-- The subfolders of a folder that are not excluded, in the order of their names. -/
def subfolders (t : FileTree) (e : Exclusion) (folder : Path) : Except FileError (List Path) :=
  (t.children folder).map fun paths => paths.filter fun p => t.isFolder p && !e.excludes p

/-- Whether a folder holds a file that is named like it and has one of the extensions. -/
def holdsComponent (t : FileTree) (extensions : List String) (folder : Path) : Bool :=
  folder.fileName?.any fun name =>
    extensions.any fun ext => t.isFile (folder.join (name ++ "." ++ ext))

/-- Whether a folder with the given subfolders is a root of a dialect. Only the web components
have a name that alone makes a folder a root. -/
def isRootOf (t : FileTree) (d : Dialect) (folder : Path) (inner : List Path) : Bool :=
  (d == .lwc && folder.fileName? == some d.word) ||
    inner.any (holdsComponent t d.entryExtensions)

/-- The dialect of which a folder is a root. -/
def rootDialect? (t : FileTree) (folder : Path) (inner : List Path) : Option Dialect :=
  if isRootOf t .aura folder inner then some .aura
  else if isRootOf t .lwc folder inner then some .lwc
  else none

/-- The roots at a folder and at most `depth` levels below it; what is in an unreadable folder
is left out. -/
def search (t : FileTree) (e : Exclusion) : Nat → Path → List (Dialect × Path)
  | depth, folder =>
      match subfolders t e folder with
      | .error _ => []
      | .ok inner =>
          match rootDialect? t folder inner with
          | some d => [(d, folder)]
          | none =>
              match depth with
              | 0 => []
              | depth + 1 => inner.flatMap (search t e depth)

/-- The name of the folder of modules in a large project. -/
def modulesName : String := "modules"

/-- The roots in the modules of a large project. -/
def searchModules (t : FileTree) (e : Exclusion) (project : Path) : List (Dialect × Path) :=
  let modules := project.join modulesName
  if t.isFolder modules then search t e 2 modules else []

/-- The roots in the packages of a project. -/
def searchPackages (t : FileTree) (e : Exclusion) (root : Path) :
    Except ConfigError (List (Dialect × Path)) := do
  let m ← Manifest.ofFolder t root
  .ok ((m.folders root).flatMap (search t e 5))

/-- The roots in the modules of each project in a folder. -/
def searchProjects (t : FileTree) (e : Exclusion) (root : Path) : List (Dialect × Path) :=
  match subfolders t e root with
  | .error _ => []
  | .ok projects => projects.flatMap (searchModules t e)

/-- The namespace roots of a workspace; only a manifest can fail. -/
def find (t : FileTree) (e : Exclusion) (kind : WorkspaceKind) (roots : List Path) :
    Except ConfigError NamespaceRoots :=
  match kind with
  | .packageSet => do
      let found ← roots.mapM (searchPackages t e)
      .ok (ofFound found.flatten)
  | .largeAll => .ok (ofFound (roots.flatMap (searchProjects t e)))
  | .largePartial => .ok (ofFound (roots.flatMap (searchModules t e)))
  | .monorepo => .ok (ofFound (roots.flatMap (search t e 8)))
  | .single | .singleWithFramework | .unknown =>
      .ok (ofFound (roots.flatMap (search t e 6)))

end NamespaceRoots

end ComponentAtlas
