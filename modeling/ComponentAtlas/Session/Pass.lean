import ComponentAtlas.Indexing.Candidate
import ComponentAtlas.Indexing.Stats
import ComponentAtlas.Session.Basic

/-!
# Full passes

A full pass looks at every candidate of a dialect, reuses the tags whose files have not changed,
compiles the others, puts the result in place of all own tags and saves the snapshot. It fails
only if the namespace roots cannot be had, and then changes nothing.
-/

namespace ComponentAtlas

/-- An operation on a project, with its result or why the project cannot be searched. -/
abbrev Attempt (α : Type) := Project × Except ConfigError α

namespace Project

/-- The tags that a pass may reuse: at first those of the snapshot, later the own tags. -/
def storedTags (p : Project) (d : Dialect) : List Tag :=
  if p.session.restored.contains d then (p.index.registry d).owned
  else
    match p.session.workspace.cacheFolder? with
    | some folder => Snapshot.loadOrEmpty p.files folder d
    | none => []

/-- The project in which the snapshot of a dialect counts as read. -/
def markRestored (p : Project) (d : Dialect) : Project :=
  if p.session.restored.contains d then p
  else { p with session := { p.session with restored := d :: p.session.restored } }

/-- Saves the own tags of a dialect as its snapshot; a failure has no effect. -/
def saveSnapshot (p : Project) (d : Dialect) : Project :=
  match p.session.workspace.cacheFolder? with
  | none => p
  | some folder =>
      match Snapshot.save p.files folder d (p.index.registry d).owned with
      | .ok files => { p with files := files }
      | .error _ => p

/-- Puts tags in place of the own tags of a dialect, with their number that are gone. -/
def replaceOwned (p : Project) (d : Dialect) (tags : List Tag) : Project × Nat :=
  let (ix, pruned, _) := p.index.replaceOwned d tags
  (p.withIndex ix, pruned)

/-- The counts of a pass over resolved candidates. -/
def passStats (results : List (Bool × Option Tag)) (removed : Nat) : Stats :=
  { discovered := results.length
    compiled := results.countP fun r => !r.1 && r.2.isSome
    fromSnapshot := results.countP fun r => r.1
    failed := results.countP fun r => r.2.isNone
    removed := removed }

/-- The tags of resolved candidates, the stored ones first. -/
def passTags (results : List (Bool × Option Tag)) : List Tag :=
  let (stored, compiled) := results.partition fun r => r.1
  (stored ++ compiled).filterMap (·.2)

/-- A pass over the candidates below known namespace roots. -/
def passOver (p : Project) (d : Dialect) (reuse : Bool) (roots : NamespaceRoots) :
    Project × Stats :=
  let candidates := Candidate.discover p.files p.session.workspace d roots
  let stored := if reuse then p.storedTags d else []
  let results := Candidate.resolve p.files d stored candidates
  let p := if reuse then p.markRestored d else p
  let (p, removed) := p.replaceOwned d (passTags results)
  (p.saveSnapshot d, passStats results removed)

/-- A full pass over one dialect. -/
def pass (p : Project) (d : Dialect) (reuse : Bool) : Attempt Stats :=
  let p := p.remember
  match p.namespaceRoots with
  | .error e => (p, .error e)
  | .ok roots =>
      let (p, stats) := p.passOver d reuse roots
      (p, .ok stats)

/-- A full pass over one dialect that reuses what has not changed. -/
def indexOne (p : Project) (d : Dialect) : Attempt Stats :=
  p.pass d true

/-- An operation on both dialects, the web components first. -/
def forBoth (op : Project → Dialect → Attempt Stats) (p : Project) : Attempt Summary :=
  let (p, lwc) := op p .lwc
  match lwc with
  | .error e => (p, .error e)
  | .ok lwc =>
      let (p, aura) := op p .aura
      (p, aura.map fun aura => ⟨lwc, aura⟩)

/-- A full pass over both dialects. -/
def fullIndex (p : Project) : Attempt Summary :=
  p.forBoth indexOne

/-- The project without own tags. -/
def clear (p : Project) : Project :=
  ((p.replaceOwned .lwc []).1.replaceOwned .aura []).1

/-- Builds the index anew, without snapshots. -/
def rebuild (p : Project) : Attempt Summary :=
  p.clear.forBoth fun p d => p.pass d false

end Project

end ComponentAtlas
