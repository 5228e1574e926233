import ComponentAtlas.Registry.Basic
import ComponentAtlas.Text.Naming

/-!
# The index

The index holds one registry per dialect and keeps them in touch. Web components appear in the
aura registry as mirrors, except those of the standard namespace; a mirror that an aura tag had
hidden comes back when that tag goes. Each batch is told to the observers of its registry, which
answer with further batches before the batch itself is noted.
-/

namespace ComponentAtlas

open ComponentAtlas.Text

/-- A tag as the aura registry shows it: a colon in its identifier, attributes in camel case. -/
def Tag.mirror (t : Tag) : Tag :=
  { t with
    identity := t.identity.withDelimiter .colon
    attributes := t.attributes.map fun a => { a with name := camelOfKebab a.name } }

/-- A registry and the number of events of a batch on it. -/
structure Notice where
  registry : Dialect
  events : Nat
  deriving DecidableEq, Repr

/-- The registries of both dialects; tags of the standard namespace are not mirrored. -/
structure Index where
  standard : String
  lwc : Registry
  aura : Registry
  deriving DecidableEq, Repr

namespace Index

/-- An index without tags. -/
def empty (standard : String) : Index :=
  ⟨standard, .empty .lwc, .empty .aura⟩

/-- The registry of a dialect. -/
def registry (ix : Index) : Dialect → Registry
  | .lwc => ix.lwc
  | .aura => ix.aura

/-- The index with another registry for a dialect. -/
def withRegistry (ix : Index) (d : Dialect) (r : Registry) : Index :=
  match d with
  | .lwc => { ix with lwc := r }
  | .aura => { ix with aura := r }

/-- Whether a tag is shown in the other registry. -/
def isMirrored (ix : Index) (t : Tag) : Bool :=
  t.identity.space != ix.standard

/-- What an event of the registry of web components does to the mirrors. -/
def mirroring (ix : Index) : TagEvent → Option TagChange
  | .set t => if ix.isMirrored t then some (.upsert t.mirror) else none
  | .deleted t => if ix.isMirrored t then some (.remove t.key) else none

/-- The mirror that comes back with an event of the aura registry. -/
def restoring (ix : Index) : TagEvent → Option TagChange
  | .set _ => none
  | .deleted t =>
      if t.dialect = .aura then
        ((ix.lwc.get? t.key).filter ix.isMirrored).map fun source => .upsert source.mirror
      else none

/-- The guarded batch on the aura registry that answers events of a registry. -/
def answer (ix : Index) (d : Dialect) (events : List TagEvent) : List TagChange :=
  match d with
  | .lwc => events.filterMap ix.mirroring
  | .aura => events.filterMap ix.restoring

/-- The observer that answers the events of a registry: it mirrors web components, and restores
mirrors, by a batch on the aura registry. -/
def answering (commit : List TagChange → Index → Index × List TagEvent × List Notice)
    (d : Dialect) : Observer (Index × List Notice) :=
  fun events (ix, notices) =>
    let reply := ix.answer d events
    if reply.isEmpty then (ix, notices)
    else
      let (next, _, more) := commit reply ix
      (next, notices ++ more)

/-- The observer that counts the events of a registry. -/
def counting (d : Dialect) : Observer (Index × List Notice) :=
  fun events (ix, notices) => (ix, notices ++ [⟨d, events.length⟩])

/-- A batch on a registry with the batches that answer it, at most `depth` deep: the new index,
the events of the batch and the notices in order. -/
def commitWithin : Nat → Bool → Dialect → List TagChange → Index →
    Index × List TagEvent × List Notice
  | 0, _, _, _, ix => (ix, [], [])
  | depth + 1, guarded, d, changes, ix =>
      let (r, events) := (ix.registry d).apply guarded changes
      let observers := [answering (commitWithin depth true .aura) d, counting d]
      let (ix, notices) := tell observers events (ix.withRegistry d r, [])
      (ix, events, notices)

/-- How deep batches can answer each other: a batch, its mirrors, and what they restore. -/
def answerDepth : Nat := 3

/-- A batch of changes on a registry. -/
def commit (ix : Index) (d : Dialect) (changes : List TagChange) :
    Index × List TagEvent × List Notice :=
  commitWithin answerDepth false d changes ix

/-- A batch of changes on a registry that leaves its own tags alone. -/
def commitMirrored (ix : Index) (d : Dialect) (changes : List TagChange) :
    Index × List TagEvent × List Notice :=
  commitWithin answerDepth true d changes ix

/-- Puts tags in place of all own tags of a registry, and counts those that are gone. -/
def replaceOwned (ix : Index) (d : Dialect) (tags : List Tag) : Index × Nat × List Notice :=
  let r := ix.registry d
  let (next, _, notices) := ix.commit d (r.replacement tags)
  (next, (r.staleKeys tags).length, notices)

/-- Forgets all own tags of a registry, and counts them. -/
def clearOwned (ix : Index) (d : Dialect) : Index × Nat × List Notice :=
  ix.replaceOwned d []

/-- An index with tags registered one by one, each for its own dialect. -/
def ofTags (standard : String) (tags : List Tag) : Index :=
  tags.foldl (fun ix t => (ix.commit t.dialect [.upsert t]).1) (empty standard)

end Index

end ComponentAtlas
