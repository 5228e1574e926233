import ComponentAtlas.Indexing.Change
import ComponentAtlas.Session.Basic
import ComponentAtlas.Uri.Basic

/-!
# What an editor tells about a workspace

Editors name folders and files by URIs. Folders and events without a file path do not count.
-/

namespace ComponentAtlas.Server

open ComponentAtlas.Text

/-- The file path of the text of a URI. -/
def pathOfUri? (uri : String) : Option Path :=
  (Uri.read? uri).bind Uri.toPath?

/-- The roots of a workspace: its folders, and the root of old when there are none. -/
def collectRoots (folders : List String) (rootUri : Option String) : List Path :=
  match folders.filterMap pathOfUri? with
  | [] => (rootUri.bind pathOfUri?).toList
  | roots => roots

/-- The change that an event of the protocol stands for. -/
def fileChange? (uri : String) (code : Nat) : Option FileChange :=
  match pathOfUri? uri, ChangeKind.ofCode? code with
  | some p, some kind => some ⟨p, kind⟩
  | _, _ => none

/-- A pattern of watched files; the kind tells which events count, all when it is absent. -/
structure Watcher where
  pattern : String
  kind : Option Nat
  deriving DecidableEq, Repr

/-- The watched files: those that define components, those that describe the workspace, and of all
others their deletion. -/
def watchers : List Watcher :=
  let extensions := Dialect.all.flatMap Dialect.entryExtensions
  ⟨"**/*.\x7b" ++ joinStrings "," extensions ++ "\x7d", none⟩ ::
    Session.configFileNames.map (fun name => ⟨"**/" ++ name, none⟩) ++ [⟨"**/*", some 4⟩]

end ComponentAtlas.Server
