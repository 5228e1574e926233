import ComponentAtlas.Path.Basic

/-!
# File changes

What an editor tells about a file: that it appeared, changed or went away.
-/

namespace ComponentAtlas

/-- The kinds of file change. -/
inductive ChangeKind where
  | created
  | changed
  | deleted
  deriving DecidableEq, Repr

namespace ChangeKind

/-- The kind of a number of the editor protocol. -/
def ofCode? : Nat → Option ChangeKind
  | 1 => some .created
  | 2 => some .changed
  | 3 => some .deleted
  | _ => none

end ChangeKind

/-- A change of a file or folder. -/
structure FileChange where
  path : Path
  kind : ChangeKind
  deriving DecidableEq, Repr

end ComponentAtlas
