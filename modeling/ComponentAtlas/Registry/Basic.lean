import ComponentAtlas.Tag.Basic

/-!
# Registries

A registry holds the tags of one dialect, each under its own key and in the order of keys, and
remembers their namespaces. A batch of changes gives the events that tell what it changed; a
mirrored batch leaves the tags of the registry's own dialect alone. Observers are told the events
of each batch that has any.
-/

namespace ComponentAtlas

/-- A change to a registry: a tag to hold, or a key to forget. -/
inductive TagChange where
  | upsert (tag : Tag)
  | remove (key : String)
  deriving DecidableEq, Repr

/-- What a change did: a tag is held now, or is held no longer. -/
inductive TagEvent where
  | set (tag : Tag)
  | deleted (tag : Tag)
  deriving DecidableEq, Repr

namespace TagEvent

/-- The tag of an event. -/
def tag : TagEvent → Tag
  | .set t => t
  | .deleted t => t

end TagEvent

/-- The tags of one dialect, in the order of their keys, and the namespaces that they had after
the last batch. -/
structure Registry where
  dialect : Dialect
  tags : List Tag
  namespaces : List String
  deriving DecidableEq, Repr

/-- An observer acts on a state when it is told the events of a batch. -/
abbrev Observer (σ : Type) := List TagEvent → σ → σ

/-- Tells the events of a batch to some observers in order; without events nobody is told. -/
def tell {σ : Type} (observers : List (Observer σ)) (events : List TagEvent) (s : σ) : σ :=
  if events.isEmpty then s else observers.foldl (fun s observer => observer events s) s

namespace Registry

/-- A registry without tags. -/
def empty (d : Dialect) : Registry := ⟨d, [], []⟩

/-- Tags in the order of keys with one more, in place of one with the same key. -/
def insertTag (t : Tag) : List Tag → List Tag
  | [] => [t]
  | u :: rest =>
      if t.key = u.key then t :: rest
      else if t.key < u.key then t :: u :: rest
      else u :: insertTag t rest

/-- Tags without that of a key. -/
def eraseKey (key : String) : List Tag → List Tag
  | [] => []
  | u :: rest => if u.key = key then rest else u :: eraseKey key rest

/-- The tag of a key. -/
def get? (r : Registry) (key : String) : Option Tag :=
  r.tags.find? fun t => t.key == key

/-- All tags, in the order of their keys. -/
def all (r : Registry) : List Tag := r.tags

/-- The tags of the registry's own dialect. -/
def owned (r : Registry) : List Tag :=
  r.tags.filter fun t => t.dialect == r.dialect

/-- The namespaces of some tags, each once. -/
def spacesOf (tags : List Tag) : List String :=
  (tags.map fun t => t.identity.space).eraseDups

/-- The registry that remembers the namespaces of the tags that it holds now. -/
def refresh (r : Registry) : Registry :=
  { r with namespaces := spacesOf r.tags }

/-- Whether a key holds a tag of the registry's own dialect. -/
def ownsKey (r : Registry) (key : String) : Bool :=
  (r.get? key).any fun t => t.dialect == r.dialect

/-- The key that a change is about. -/
def changeKey : TagChange → String
  | .upsert t => t.key
  | .remove key => key

/-- One change, and its event if it did anything. -/
def applyChange (guarded : Bool) (r : Registry) (change : TagChange) :
    Registry × Option TagEvent :=
  if guarded && r.ownsKey (changeKey change) then (r, none)
  else
    match change with
    | .upsert t => ({ r with tags := insertTag t r.tags }, some (.set t))
    | .remove key =>
        match r.get? key with
        | some old => ({ r with tags := eraseKey key r.tags }, some (.deleted old))
        | none => (r, none)

/-- The changes of a batch in order, and their events. -/
def applyBatch (guarded : Bool) (r : Registry) : List TagChange → Registry × List TagEvent
  | [] => (r, [])
  | change :: changes =>
      let (next, event) := applyChange guarded r change
      let (last, events) := applyBatch guarded next changes
      (last, event.toList ++ events)

/-- A batch of changes: the registry behind it, and its events. -/
def apply (guarded : Bool) (r : Registry) (changes : List TagChange) :
    Registry × List TagEvent :=
  if changes.isEmpty then (r, [])
  else
    let (next, events) := r.applyBatch guarded changes
    (next.refresh, events)

/-- The own keys that are not among those of some tags. -/
def staleKeys (r : Registry) (tags : List Tag) : List String :=
  (r.owned.map Tag.key).filter fun key => !(tags.map Tag.key).contains key

/-- The changes that put some tags in place of all own tags. -/
def replacement (r : Registry) (tags : List Tag) : List TagChange :=
  (r.staleKeys tags).map .remove ++ tags.map .upsert

theorem get?_eq_some_key {r : Registry} {key : String} {t : Tag} (h : r.get? key = some t) :
    t.key = key := by
  simpa using List.find?_some h

theorem mem_insertTag {t u : Tag} {tags : List Tag} (h : u ∈ insertTag t tags) :
    u = t ∨ u ∈ tags := by
  induction tags with
  | nil => simpa [insertTag] using h
  | cons v rest ih =>
      unfold insertTag at h
      split at h
      · rcases List.mem_cons.mp h with h | h
        · exact .inl h
        · exact .inr (List.mem_cons_of_mem _ h)
      · split at h
        · rcases List.mem_cons.mp h with h | h
          · exact .inl h
          · exact .inr h
        · rcases List.mem_cons.mp h with h | h
          · exact .inr (h ▸ List.mem_cons_self ..)
          · exact (ih h).imp id (List.mem_cons_of_mem _)

end Registry

end ComponentAtlas
