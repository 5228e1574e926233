import ComponentAtlas.Files.Tree
import ComponentAtlas.Tag.Stored

/-!
# Snapshots

A snapshot keeps the tags of a dialect in a file, so that unchanged components need not be
compiled again. It is written in the order of keys, and a file that is no list of tags counts as
an empty snapshot.
-/

namespace ComponentAtlas

/-- Why a snapshot cannot be read. -/
inductive SnapshotError where
  | missing
  | unreadable (cause : FileError)
  | malformed
  deriving DecidableEq, Repr

/-- The wording of a snapshot error. -/
def SnapshotError.message : SnapshotError → String
  | .missing => "Cache not found"
  | .unreadable cause => cause.message
  | .malformed => "Malformed cache"

namespace Snapshot

/-- The file of the snapshot of a dialect below a folder of snapshots. -/
def file (folder : Path) (d : Dialect) : Path :=
  ((folder.join "indexes").join d.word).join "custom-components.json"

/-- Reads the tags of a snapshot. -/
def load (t : FileTree) (folder : Path) (d : Dialect) : Except SnapshotError (List Tag) :=
  if t.holds (file folder d) then
    match t.read (file folder d) with
    | .error cause => .error (.unreadable cause)
    | .ok text =>
        match Stored.readTags? text with
        | some tags => .ok tags
        | none => .error .malformed
  else .error .missing

/-- The tags of a snapshot; one that cannot be read has none. -/
def loadOrEmpty (t : FileTree) (folder : Path) (d : Dialect) : List Tag :=
  (load t folder d).toOption.getD []

/-- The text of a snapshot of some tags. -/
def write (tags : List Tag) : String :=
  Stored.writeTags (tags.mergeSort fun a b => a.key ≤ b.key)

/-- Makes a folder if nothing stands in its place. -/
def ensureFolder (t : FileTree) (folder : Path) : Except FileError FileTree :=
  if t.holds folder then .ok t else t.createFolders folder

/-- Saves tags as the snapshot of a dialect. -/
def save (t : FileTree) (folder : Path) (d : Dialect) (tags : List Tag) :
    Except FileError FileTree := do
  let target := file folder d
  let t ← match target.parent? with
    | some p => ensureFolder t p
    | none => .ok t
  t.write target (write tags)

/-- The last of some tags with a given file. -/
def tagOf? (tags : List Tag) (p : Path) : Option Tag :=
  tags.reverse.find? fun t => t.file.same p

/-- The tag that can be reused for each of some files with their times: the one of the same file
and time. The tags of a file are used up by its first occurrence. -/
def reuse (tags : List Tag) : List (Path × Nat) → List (Option Tag)
  | [] => []
  | (p, time) :: rest =>
      (tagOf? tags p).filter (fun t => t.modifiedAt == time) ::
        reuse (tags.filter fun t => !t.file.same p) rest

theorem length_reuse (tags : List Tag) (files : List (Path × Nat)) :
    (reuse tags files).length = files.length := by
  induction files generalizing tags with
  | nil => rfl
  | cons f rest ih => simp [reuse, ih]

end Snapshot

end ComponentAtlas
