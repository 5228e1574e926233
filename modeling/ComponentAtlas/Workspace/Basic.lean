import ComponentAtlas.Workspace.Roots
import ComponentAtlas.Workspace.Settings

/-!
# Workspaces

A workspace has roots, a kind and settings, which stay as they were when it was loaded. Its
namespace roots are searched for when they are first asked for and remembered until they are
forgotten.
-/

namespace ComponentAtlas

/-- A workspace, with its namespace roots if they are known. -/
structure Workspace where
  roots : List Path
  kind : WorkspaceKind
  settings : Settings
  exclusion : Exclusion
  known : Option NamespaceRoots

namespace Workspace

/-- The workspace with the given roots and settings. -/
def ofSettings (t : FileTree) (roots : List Path) (s : Settings) : Workspace :=
  ⟨roots, WorkspaceKind.ofRoots t roots, s, s.exclusion, none⟩

/-- The workspace with the given roots; its settings are those in the first of them. -/
def load (t : FileTree) (roots : List Path) : Workspace :=
  ofSettings t roots ((roots.head?.map (Settings.ofFolder t)).getD .standard)

/-- The namespace roots as the tree has them now. -/
def searchRoots (w : Workspace) (t : FileTree) : Except ConfigError NamespaceRoots :=
  NamespaceRoots.find t w.exclusion w.kind w.roots

/-- The namespace roots: the known ones, or else those of the tree. -/
def namespaceRoots (w : Workspace) (t : FileTree) : Except ConfigError NamespaceRoots :=
  match w.known with
  | some r => .ok r
  | none => w.searchRoots t

/-- The workspace that remembers its namespace roots, if they can be had. -/
def remember (w : Workspace) (t : FileTree) : Workspace :=
  { w with known := (w.namespaceRoots t).toOption }

/-- The workspace that knows no namespace roots. -/
def forgetRoots (w : Workspace) : Workspace :=
  { w with known := none }

/-- The namespace of the components of a root: its name, or the default for a reserved name. -/
def namespaceForRoot (w : Workspace) (root : Path) (d : Dialect) : String :=
  match root.fileName? with
  | some name => if name = d.word then w.settings.defaultNamespace else name
  | none => w.settings.defaultNamespace

/-- The folder of the snapshots, unless there are none. -/
def cacheFolder? (w : Workspace) : Option Path :=
  if w.settings.cache then w.roots.head?.map fun root => root.join w.settings.cacheRoot
  else none

/-- Whether a path lies below a root and no name of it below the first such root is excluded. -/
def isRelevant (w : Workspace) (p : Path) : Bool :=
  match w.roots.findSome? p.below? with
  | some steps => !w.exclusion.excludesStep steps
  | none => false

/-- Whether a path stands directly in a root. -/
def isAtRoot (w : Workspace) (p : Path) : Bool :=
  p.parent?.any fun folder => w.roots.any folder.same

theorem namespaceRoots_remember (w : Workspace) (t : FileTree) :
    (w.remember t).namespaceRoots t = w.namespaceRoots t := by
  unfold remember namespaceRoots searchRoots
  cases w.known with
  | some r => rfl
  | none => cases h : NamespaceRoots.find t w.exclusion w.kind w.roots <;> simp [Except.toOption]

end Workspace

end ComponentAtlas
