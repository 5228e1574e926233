/-!
# Statistics of indexing

What one indexing pass or one batch of changes did in a dialect, and in both.
-/

namespace ComponentAtlas

/-- The counts of an indexing step in one dialect: files looked at, compiled, taken from the
snapshot, not compilable, tags removed, and files outside all known namespace roots. -/
structure Stats where
  discovered : Nat := 0
  compiled : Nat := 0
  fromSnapshot : Nat := 0
  failed : Nat := 0
  removed : Nat := 0
  unrooted : Nat := 0
  deriving DecidableEq, Repr, Inhabited

/-- The counts of both dialects. -/
structure Summary where
  lwc : Stats := {}
  aura : Stats := {}
  deriving DecidableEq, Repr, Inhabited

namespace Summary

/-- The number of tags that were compiled or taken from a snapshot. -/
def tags (s : Summary) : Nat :=
  s.lwc.compiled + s.lwc.fromSnapshot + s.aura.compiled + s.aura.fromSnapshot

/-- The number of files outside all known namespace roots. -/
def unrooted (s : Summary) : Nat :=
  s.lwc.unrooted + s.aura.unrooted

end Summary

end ComponentAtlas
