import ComponentAtlas.Json.Reader
import ComponentAtlas.Workspace.Manifest

/-!
# Kinds of workspace

The files next to the root of a workspace tell how its components are laid out. The first mark
that is found decides, and roots that disagree make a workspace of unknown kind.
-/

namespace ComponentAtlas

open ComponentAtlas.Json

/-- How the components of a workspace are laid out. -/
inductive WorkspaceKind where
  | single
  | singleWithFramework
  | monorepo
  | packageSet
  | largeAll
  | largePartial
  | unknown
  deriving DecidableEq, Repr

namespace WorkspaceKind

/-- The name of a kind. -/
def name : WorkspaceKind → String
  | .single => "SinglePackage"
  | .singleWithFramework => "SinglePackageWithFrameworkDep"
  | .monorepo => "Monorepo"
  | .packageSet => "SfdxPackageSet"
  | .largeAll => "LargeMultiProjectAll"
  | .largePartial => "LargeMultiProjectPartial"
  | .unknown => "Unknown"

/-- The name of the file at the root of a workspace of several large projects. -/
def userFileName : String := "workspace-user.xml"

/-- The name of the package file. -/
def packageFileName : String := "package.json"

/-- The name of the file that lists the packages of a monorepo. -/
def lernaFileName : String := "lerna.json"

/-- Whether a key of dependencies names the component framework. -/
def isFrameworkName (key : String) : Bool :=
  key == "lwc" || "@lwc/".isPrefixOf key

/-- Whether the value of a key is an object with a key of the framework. -/
def dependsIn (package : Value) (key : String) : Bool :=
  match package.get? key with
  | some (.object fields) => fields.any fun field => isFrameworkName field.1
  | _ => false

/-- Whether a package file asks for the component framework. -/
def usesFramework (package : Value) : Bool :=
  (package.get? "lwc").isSome || dependsIn package "dependencies" ||
    dependsIn package "devDependencies"

/-- The kind of a folder with a package file, which may not be readable. -/
def ofPackage (package : Option Value) (hasLerna : Bool) : WorkspaceKind :=
  if package.any usesFramework then .singleWithFramework
  else if hasLerna || package.any fun v => (v.get? "workspaces").isSome then .monorepo
  else .single

/-- The kind that the files around a root tell. -/
def ofRoot (t : FileTree) (root : Path) : WorkspaceKind :=
  let hasLerna := t.isFile (root.join lernaFileName)
  if t.isFile (root.join Manifest.fileName) then .packageSet
  else if t.isFile (root.join userFileName) then .largeAll
  else if root.parent?.any fun p => t.isFile (p.join userFileName) then .largePartial
  else if t.isFile (root.join packageFileName) then
    ofPackage ((t.read (root.join packageFileName)).toOption.bind Json.read?) hasLerna
  else if hasLerna then .monorepo
  else .unknown

/-- The kind of a workspace: that on which all of its roots agree. -/
def ofRoots (t : FileTree) : List Path → WorkspaceKind
  | [] => .unknown
  | root :: rest =>
      let kind := ofRoot t root
      if rest.all fun other => ofRoot t other = kind then kind else .unknown

end WorkspaceKind

end ComponentAtlas
