import ComponentAtlas.Indexing.Change
import ComponentAtlas.Registry.Lookup
import ComponentAtlas.Session.Pass

/-!
# Updates

A batch of file changes is brought into the index without a full pass where that is possible. A
folder that goes away and touches a namespace root asks for a full pass, and so does a component
outside all known namespace roots, after these have been forgotten.
-/

namespace ComponentAtlas

/-- A deletion without extension counts as that of a folder. -/
def FileChange.deletesFolder (c : FileChange) : Bool :=
  c.kind == .deleted && c.path.extension?.isNone

/-- Whether a folder is a root, lies in one, or holds one. -/
def touchesRoot (folder : Path) (roots : List Path) : Bool :=
  roots.any fun root => folder.startsWith root || root.startsWith folder

/-- What a batch of changes comes to: the counts, the keys that go and the tags that come. -/
structure Update where
  stats : Stats := {}
  deleted : List String := []
  broken : List String := []
  tags : List Tag := []

namespace Update

/-- Tags with one more, in place of one with the same key. -/
def addTag (tags : List Tag) (t : Tag) : List Tag :=
  tags.filter (fun u => u.key != t.key) ++ [t]

/-- The update with a component that is gone. -/
def delete (u : Update) (r : Registry) (p : Path) : Update :=
  { u with deleted := u.deleted ++ ((r.tagForFile? p).map Tag.key).toList }

/-- The update with a candidate that was compiled, or could not be. -/
def compile (u : Update) (r : Registry) (p : Path) : Option Tag → Update
  | some t =>
      { u with
        stats := { u.stats with compiled := u.stats.compiled + 1 }
        tags := addTag u.tags t }
  | none =>
      { u with
        stats := { u.stats with failed := u.stats.failed + 1 }
        broken := u.broken ++ ((r.tagForFile? p).map Tag.key).toList }

/-- The update with a change of the file of a component. -/
def step (p : Project) (d : Dialect) (roots : NamespaceRoots) (u : Update) (c : FileChange) :
    Update :=
  if !c.path.isEntry d.entryExtensions then u
  else
    let u := { u with stats := { u.stats with discovered := u.stats.discovered + 1 } }
    let r := p.index.registry d
    if c.kind = .deleted then u.delete r c.path
    else
      match c.path.grandparent?.filter (roots.contains d) with
      | none => { u with stats := { u.stats with unrooted := u.stats.unrooted + 1 } }
      | some root =>
          match p.files.modifiedAt? c.path with
          | none => u
          | some time =>
              let space := p.session.workspace.namespaceForRoot root d
              u.compile r c.path (Candidate.compile? p.files d ⟨c.path, space, time⟩)

/-- The keys that go, deleted files first. -/
def removals (u : Update) : List String := u.deleted ++ u.broken

/-- The batch of an update on the registry: what goes, and then what comes. -/
def batch (u : Update) : List TagChange :=
  u.removals.map .remove ++ u.tags.map .upsert

/-- The counts of an update. -/
def counts (u : Update) : Stats :=
  { u.stats with removed := u.removals.length }

end Update

namespace Project

/-- Brings a batch of changes into one dialect. -/
def update (changes : List FileChange) (p : Project) (d : Dialect) : Attempt Stats :=
  let p := p.remember
  match p.namespaceRoots with
  | .error e => (p, .error e)
  | .ok roots =>
      if changes.any fun c => c.deletesFolder && touchesRoot c.path (roots.forDialect d) then
        p.indexOne d
      else
        let u := changes.foldl (Update.step p d roots) {}
        (p.withIndex (p.index.commit d u.batch).1, .ok u.counts)

/-- Brings a batch of changes into both dialects. Changes outside of the workspace do not count,
and a component outside of all known roots asks for a new search and a full pass. -/
def applyChanges (p : Project) (changes : List FileChange) : Attempt Summary :=
  let relevant := changes.filter fun c => p.session.workspace.isRelevant c.path
  if relevant.isEmpty then (p, .ok {})
  else
    let (p, result) := p.forBoth (update relevant)
    match result with
    | .error e => (p, .error e)
    | .ok summary => if 0 < summary.unrooted then p.forgetRoots.fullIndex else (p, .ok summary)

end Project

end ComponentAtlas
