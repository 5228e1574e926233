import ComponentAtlas.Path.Basic

/-!
# File trees

A file tree says what stands at each place below the root. A path leads to a place step by step:
each step needs a folder to start from, so a path through a file or through nothing leads
nowhere, although its last step may name a place where nothing stands yet.
-/

namespace ComponentAtlas

open ComponentAtlas.Text

/-- A place in a file tree: the names from the root down to it. -/
abbrev Place := List String

/-- What stands at a place. A file whose bytes are no text has none. -/
inductive Entry where
  | folder
  | file (text : Option String) (modifiedAt : Nat)
  deriving DecidableEq, Repr

/-- Why a path cannot be used as asked. -/
inductive FileError where
  | notFound
  | exists
  | notFolder
  | isFolder
  | notText
  deriving DecidableEq, Repr

/-- The wording of a file error. -/
def FileError.message : FileError → String
  | .notFound => "No such file or directory (os error 2)"
  | .exists => "File exists (os error 17)"
  | .notFolder => "Not a directory (os error 20)"
  | .isFolder => "Is a directory (os error 21)"
  | .notText => "stream did not contain valid UTF-8"

/-- The entries below the root, at most one for each place. -/
structure FileTree where
  entries : List (Place × Entry)
  deriving DecidableEq, Repr

namespace FileTree

/-- A tree in which only the root stands. -/
def empty : FileTree := ⟨[]⟩

/-- What stands at a place; the root is a folder. -/
def get? (t : FileTree) (place : Place) : Option Entry :=
  if place = [] then some .folder
  else (t.entries.find? fun e => e.1 == place).map (·.2)

/-- The tree with an entry at a place. -/
def put (t : FileTree) (place : Place) (e : Entry) : FileTree :=
  ⟨(place, e) :: t.entries.filter fun old => old.1 != place⟩

/-- The tree without what stands at a place and below it. -/
def erase (t : FileTree) (place : Place) : FileTree :=
  ⟨t.entries.filter fun old => !place.isPrefixOf old.1⟩

/-- The pieces of an absolute path. -/
def piecesOf? (p : Path) : Option (List String) :=
  match splitAt '/' p.text.toList with
  | [] :: second :: rest => some ((second :: rest).map String.ofList)
  | _ => none

/-- The place where pieces lead from a place. -/
def walk (t : FileTree) : Place → List String → Except FileError Place
  | here, [] => .ok here
  | here, piece :: rest =>
      match t.get? here with
      | none => .error .notFound
      | some (.file ..) => .error .notFolder
      | some .folder =>
          if piece = "" ∨ piece = "." then walk t here rest
          else if piece = ".." then walk t here.dropLast rest
          else walk t (here ++ [piece]) rest

/-- The place where a path leads. -/
def resolve (t : FileTree) (p : Path) : Except FileError Place :=
  match piecesOf? p with
  | none => .error .notFound
  | some pieces => t.walk [] pieces

/-- What stands where a path leads. -/
def entry? (t : FileTree) (p : Path) : Except FileError Entry := do
  match t.get? (← t.resolve p) with
  | some e => .ok e
  | none => .error .notFound

/-- Whether anything stands where a path leads. -/
def holds (t : FileTree) (p : Path) : Bool :=
  (t.entry? p).isOk

/-- Whether a path leads to a file. -/
def isFile (t : FileTree) (p : Path) : Bool :=
  match t.entry? p with
  | .ok (.file ..) => true
  | _ => false

/-- Whether a path leads to a folder. -/
def isFolder (t : FileTree) (p : Path) : Bool :=
  match t.entry? p with
  | .ok .folder => true
  | _ => false

/-- The text of a file. -/
def read (t : FileTree) (p : Path) : Except FileError String := do
  match ← t.entry? p with
  | .folder => .error .isFolder
  | .file none _ => .error .notText
  | .file (some text) _ => .ok text

/-- The time of the last change of a file; that of a folder is not kept. -/
def modifiedAt? (t : FileTree) (p : Path) : Option Nat :=
  match t.entry? p with
  | .ok (.file _ time) => some time
  | .ok .folder => some 0
  | .error _ => none

/-- The name of an entry that stands directly in a folder. -/
def nameIn? (folder place : Place) : Option String :=
  match place.getLast? with
  | some name => if place.dropLast = folder then some name else none
  | none => none

/-- The names in a folder, in order. -/
def namesAt (t : FileTree) (folder : Place) : List String :=
  (t.entries.filterMap fun e => nameIn? folder e.1).mergeSort fun a b => a ≤ b

/-- The paths of what stands in a folder, in the order of their names. -/
def children (t : FileTree) (p : Path) : Except FileError (List Path) := do
  let place ← t.resolve p
  match t.get? place with
  | none => .error .notFound
  | some (.file ..) => .error .notFolder
  | some .folder => .ok ((t.namesAt place).map p.join)

/-- Writes a text into a file, which is made if it is missing; its folder must stand. -/
def write (t : FileTree) (p : Path) (text : String) : Except FileError FileTree := do
  let place ← t.resolve p
  match t.get? place with
  | some .folder => .error .isFolder
  | _ => .ok (t.put place (.file (some text) 0))

/-- Whether a piece of a path stays where it is. -/
def isIdle (piece : String) : Bool :=
  piece == "" || piece == "."

/-- Makes the folders on the way of pieces from a folder. -/
def makeFolders (t : FileTree) : Place → List String → Except FileError FileTree
  | _, [] => .ok t
  | here, piece :: rest =>
      if isIdle piece then makeFolders t here rest
      else if piece = ".." then makeFolders t here.dropLast rest
      else
        let next := here ++ [piece]
        match t.get? next with
        | some .folder => makeFolders t next rest
        | some (.file ..) =>
            .error (if rest.all isIdle then .exists else .notFolder)
        | none => makeFolders (t.put next .folder) next rest

/-- Makes a folder and those around it, as far as they are missing. -/
def createFolders (t : FileTree) (p : Path) : Except FileError FileTree :=
  match piecesOf? p with
  | none => .error .notFound
  | some pieces => t.makeFolders [] pieces

/-- Puts an entry at a place in place of all that is in its way. -/
def plantAt (t : FileTree) : Place → List String → Entry → FileTree
  | here, [], e =>
      if e = .folder ∧ t.get? here = some .folder then t else (t.erase here).put here e
  | here, piece :: rest, e =>
      match t.get? here with
      | some .folder => plantAt t (here ++ [piece]) rest e
      | _ => plantAt (t.put here .folder) (here ++ [piece]) rest e

/-- Puts an entry where a path leads by its names, in place of all that is in its way. -/
def plant (t : FileTree) (p : Path) (e : Entry) : FileTree :=
  let names := p.components.foldl (fun (names : List String) step =>
    match step with
    | .name s => names ++ [s]
    | .parent => names.dropLast
    | _ => names) []
  if names = [] then t else t.plantAt [] names e

/-- Removes a file or a whole folder, if it stands. -/
def remove? (t : FileTree) (p : Path) : Option FileTree :=
  match t.resolve p with
  | .error _ => none
  | .ok place => (t.get? place).map fun _ => t.erase place

/-- Changes the time of a file. -/
def touch (t : FileTree) (p : Path) (time : Nat) : FileTree :=
  match t.resolve p with
  | .error _ => t
  | .ok place =>
      match t.get? place with
      | some (.file text _) => t.put place (.file text time)
      | _ => t

/-- The spelling of an entry; that of a folder ends with a slash. -/
def spelling (place : Place) : Entry → String
  | .folder => "/" ++ joinStrings "/" place ++ "/"
  | .file .. => "/" ++ joinStrings "/" place

/-- The spellings of all that stands below a path, in order. -/
def listing (t : FileTree) (p : Path) : List String :=
  match t.resolve p with
  | .error _ => []
  | .ok place =>
      let below := t.entries.filter fun e => place.isPrefixOf e.1 && e.1 != place
      (below.map fun e => spelling e.1 e.2).mergeSort fun a b => a ≤ b

@[simp] theorem get?_root (t : FileTree) : t.get? [] = some .folder := rfl

theorem get?_put_self {t : FileTree} {place : Place} {e : Entry} (h : place ≠ []) :
    (t.put place e).get? place = some e := by
  simp [get?, put, h]

theorem get?_put_of_ne {t : FileTree} {place other : Place} {e : Entry} (h : other ≠ place) :
    (t.put place e).get? other = t.get? other := by
  unfold get? put
  split
  · rfl
  · have hne : (place == other) = false := by simpa using fun he => h he.symm
    simp only [List.find?_cons, hne]
    congr 1
    induction t.entries with
    | nil => rfl
    | cons old rest ih =>
        by_cases hold : old.1 = place
        · have : (old.1 == other) = false := by simpa [hold] using fun he => h he.symm
          simp [hold, ih, hne]
        · simp [hold, List.find?_cons, ih]

end FileTree

end ComponentAtlas
