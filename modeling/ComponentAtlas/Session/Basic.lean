import ComponentAtlas.Registry.Index
import ComponentAtlas.Workspace.Basic

/-!
# Sessions

A session is what is known about one workspace: its description, the index of its components,
and for which dialects the snapshot has been read. A project is a session with the files that it
works on.
-/

namespace ComponentAtlas

/-- What is known about a workspace. -/
structure Session where
  workspace : Workspace
  index : Index
  restored : List Dialect

namespace Session

/-- A session on a workspace, in which nothing is indexed. -/
def ofWorkspace (w : Workspace) : Session :=
  ⟨w, .empty w.settings.standardNamespace, []⟩

/-- A session on the workspace with the given roots. -/
def load (t : FileTree) (roots : List Path) : Session :=
  ofWorkspace (.load t roots)

/-- The session with its namespace roots looked up, if they can be had. -/
def remember (s : Session) (t : FileTree) : Session :=
  { s with workspace := s.workspace.remember t }

/-- The session with its namespace roots forgotten. -/
def forgetRoots (s : Session) : Session :=
  { s with workspace := s.workspace.forgetRoots }

/-- The names of the files at a root that describe the workspace. -/
def configFileNames : List String :=
  [Manifest.fileName, WorkspaceKind.packageFileName, Settings.fileName]

/-- Whether a file describes the workspace: a change of it asks for a new session. -/
def isConfigFile (s : Session) (p : Path) : Bool :=
  s.workspace.isAtRoot p && p.fileName?.any configFileNames.contains

end Session

/-- A session and the files that it works on. -/
structure Project where
  files : FileTree
  session : Session

namespace Project

/-- The project with a new session on the same roots. -/
def reload (p : Project) : Project :=
  ⟨p.files, .load p.files p.session.workspace.roots⟩

/-- The index of a project. -/
def index (p : Project) : Index := p.session.index

/-- The project with another index. -/
def withIndex (p : Project) (ix : Index) : Project :=
  { p with session := { p.session with index := ix } }

/-- The project with its namespace roots looked up, if they can be had. -/
def remember (p : Project) : Project :=
  { p with session := p.session.remember p.files }

/-- The project with its namespace roots forgotten. -/
def forgetRoots (p : Project) : Project :=
  { p with session := p.session.forgetRoots }

/-- The namespace roots of a project. -/
def namespaceRoots (p : Project) : Except ConfigError NamespaceRoots :=
  p.session.workspace.namespaceRoots p.files

theorem namespaceRoots_remember (p : Project) :
    p.remember.namespaceRoots = p.namespaceRoots :=
  Workspace.namespaceRoots_remember _ _

end Project

end ComponentAtlas
