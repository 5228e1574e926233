import ComponentAtlas.Proofs.Registry.Events

/-!
# Nested batches

The observers of a registry answer the events of a batch by a further batch, which is told to
observers before they return. Seen without any bound on the depth, a batch leads to a row of
batches, each nested in the one before. In every index that requests can make, whatever the
dialects of its tags are, that row has at most two batches: the answer is guarded, a guarded batch
deletes no own tag, and nothing else is answered in the aura registry.
-/

namespace ComponentAtlas

/-- A batch of changes on the registry of a dialect. -/
structure Batch where
  registry : Dialect
  guarded : Bool
  changes : List TagChange
  deriving DecidableEq, Repr

namespace Index

open Registry

/-- The index behind a batch before anything is told, and the events of the batch. -/
def take (ix : Index) (b : Batch) : Index × List TagEvent :=
  let (r, events) := (ix.registry b.registry).apply b.guarded b.changes
  (ix.withRegistry b.registry r, events)

/-- The index behind some batches in a row, each applied once. -/
def takeAll (ix : Index) (batches : List Batch) : Index :=
  batches.foldl (fun ix b => (ix.take b).1) ix

/-- The batch with which the observers of a registry answer a batch; without changes there is no
answer. -/
def reply (ix : Index) (b : Batch) : Batch :=
  ⟨.aura, true, (ix.take b).1.answer b.registry (ix.take b).2⟩

/-- What a batch leads to: the batches in the order in which they are applied, each nested in the
one before, and the index behind all of them. -/
inductive Cascade : Index → Batch → List Batch → Index → Prop where
  | ends {ix : Index} {b : Batch} (h : (ix.reply b).changes = []) : Cascade ix b [b] (ix.take b).1
  | nests {ix last : Index} {b : Batch} {batches : List Batch} (h : (ix.reply b).changes ≠ [])
      (hrest : Cascade (ix.take b).1 (ix.reply b) batches last) : Cascade ix b (b :: batches) last

/-- The notices of batches that are nested in each other: those of the inner ones come first, and
a batch without events has none. -/
def notices (ix : Index) : List Batch → List Notice
  | [] => []
  | b :: rest =>
      notices (ix.take b).1 rest ++
        if (ix.take b).2 = [] then [] else [⟨b.registry, (ix.take b).2.length⟩]

/-- The index behind a request to the registry of a dialect. -/
def serve (ix : Index) (d : Dialect) : Request → Index
  | .commit changes => (ix.commit d changes).1
  | .commitMirrored changes => (ix.commitMirrored d changes).1
  | .replaceOwned tags => (ix.replaceOwned d tags).1
  | .clearOwned => (ix.clearOwned d).1

/-- The index behind some requests in order. -/
def serveAll (ix : Index) (requests : List (Dialect × Request)) : Index :=
  requests.foldl (fun ix q => ix.serve q.1 q.2) ix

/-- An index that some requests make of an empty one. -/
def Reached (ix : Index) : Prop :=
  ∃ standard requests, ix = (empty standard).serveAll requests

section Step

variable (ix : Index) (b : Batch)

theorem dialect_take (e : Dialect) :
    ((ix.take b).1.registry e).dialect = (ix.registry e).dialect := by
  obtain ⟨d, guarded, changes⟩ := b
  cases d <;> cases e <;> simp [take, withRegistry, registry]

/-- Without events there is no answer. -/
theorem reply_of_silent (h : (ix.take b).2 = []) : (ix.reply b).changes = [] := by
  rw [reply, h]
  cases b.registry <;> rfl

/-- A batch with its events, the batches that answer it, and the notices, one level deep. -/
theorem commitWithin_succ (depth : Nat) :
    commitWithin (depth + 1) b.guarded b.registry b.changes ix =
      let own : List Notice :=
        if (ix.take b).2 = [] then [] else [⟨b.registry, (ix.take b).2.length⟩]
      if (ix.reply b).changes = [] then ((ix.take b).1, (ix.take b).2, own)
      else
        let inner := commitWithin depth true .aura (ix.reply b).changes (ix.take b).1
        (inner.1, (ix.take b).2, inner.2.2 ++ own) := by
  have hlevel : commitWithin (depth + 1) b.guarded b.registry b.changes ix =
      let told := tell [answering (commitWithin depth true .aura) b.registry, counting b.registry]
        (ix.take b).2 ((ix.take b).1, [])
      (told.1, (ix.take b).2, told.2) := rfl
  rw [hlevel]
  by_cases hevents : (ix.take b).2 = []
  · simp [hevents, reply_of_silent ix b hevents, tell]
  · by_cases hreply : (ix.reply b).changes = []
    · have hanswer : (ix.take b).1.answer b.registry (ix.take b).2 = [] := hreply
      simp [tell, hevents, hreply, answering, counting, hanswer]
    · have hanswer : (ix.take b).1.answer b.registry (ix.take b).2 ≠ [] := hreply
      simp [tell, hevents, answering, counting, reply, hanswer]

/-- A guarded batch deletes no tag of the dialect of its registry. -/
theorem dialect_of_deleted (hguarded : b.guarded = true) {t : Tag}
    (ht : .deleted t ∈ (ix.take b).2) : t.dialect ≠ (ix.registry b.registry).dialect := by
  have hevents : (ix.take b).2 = ((ix.registry b.registry).applyBatch true b.changes).2 := by
    rw [← hguarded]
    exact apply_events b.guarded (ix.registry b.registry) b.changes
  exact deleted_mem_applyBatch_guarded (hevents ▸ ht)

/-- A guarded batch on the aura registry is not answered. -/
theorem reply_guarded (haura : ix.aura.dialect = .aura) (hb : b.registry = .aura)
    (hguarded : b.guarded = true) : (ix.reply b).changes = [] := by
  obtain ⟨d, guarded, changes⟩ := b
  obtain rfl : d = .aura := hb
  obtain rfl : guarded = true := hguarded
  have hevents : (ix.take ⟨.aura, true, changes⟩).2 = (ix.aura.applyBatch true changes).2 :=
    apply_events true ix.aura changes
  rw [reply, hevents]
  exact answer_guarded haura changes _

end Step

section Run

variable {ix : Index} {b : Batch} {batches : List Batch} {last : Index}

/-- The answer to a batch has no answer. -/
theorem reply_reply (haura : ix.aura.dialect = .aura) (b : Batch) :
    ((ix.take b).1.reply (ix.reply b)).changes = [] :=
  reply_guarded (ix.take b).1 (ix.reply b) ((dialect_take ix b .aura).trans haura) rfl rfl

/-- A batch without an answer leads to nothing else. -/
theorem cascade_iff_of_ends (h : (ix.reply b).changes = []) :
    Cascade ix b batches last ↔ batches = [b] ∧ last = (ix.take b).1 := by
  constructor
  · intro hrun
    cases hrun with
    | ends => exact ⟨rfl, rfl⟩
    | nests hreply => exact absurd h hreply
  · rintro ⟨rfl, rfl⟩
    exact .ends h

/-- A batch with an answer leads to that and to nothing else. -/
theorem cascade_iff_of_nests (haura : ix.aura.dialect = .aura) (h : (ix.reply b).changes ≠ []) :
    Cascade ix b batches last ↔
      batches = [b, ix.reply b] ∧ last = ((ix.take b).1.take (ix.reply b)).1 := by
  have hquiet := reply_reply haura b
  constructor
  · intro hrun
    cases hrun with
    | ends hreply => exact absurd hreply h
    | nests hreply hrest =>
        obtain ⟨rfl, rfl⟩ := (cascade_iff_of_ends hquiet).mp hrest
        exact ⟨rfl, rfl⟩
  · rintro ⟨rfl, rfl⟩
    exact .nests h (.ends hquiet)

/-- Two levels are as deep as any batch goes: more depth changes nothing. -/
theorem commitWithin_two_le (haura : ix.aura.dialect = .aura) (b : Batch) (depth : Nat) :
    commitWithin (depth + 2) b.guarded b.registry b.changes ix =
      let batches := if (ix.reply b).changes = [] then [b] else [b, ix.reply b]
      (ix.takeAll batches, (ix.take b).2, ix.notices batches) := by
  rw [commitWithin_succ]
  by_cases hreply : (ix.reply b).changes = []
  · simp only [hreply, if_true, notices, List.nil_append]
    rfl
  · have hinner := commitWithin_succ (ix.take b).1 (ix.reply b) depth
    simp only [reply_reply haura b, if_true] at hinner
    have hnested : commitWithin (depth + 1) true .aura (ix.reply b).changes (ix.take b).1 = _ :=
      hinner
    simp only [hreply, if_false, hnested, notices, List.nil_append]
    rfl

end Run

section Reach

/-- Every request is one batch with what answers it. -/
theorem serve_eq_commitWithin (ix : Index) (d : Dialect) (q : Request) :
    ∃ guarded changes, ix.serve d q = (commitWithin answerDepth guarded d changes ix).1 := by
  cases q with
  | commit changes => exact ⟨false, changes, rfl⟩
  | commitMirrored changes => exact ⟨true, changes, rfl⟩
  | replaceOwned tags => exact ⟨false, (ix.registry d).replacement tags, rfl⟩
  | clearOwned => exact ⟨false, (ix.registry d).replacement [], rfl⟩

theorem dialect_commitWithin (ix : Index) (depth : Nat) (b : Batch) (e : Dialect) :
    ((commitWithin depth b.guarded b.registry b.changes ix).1.registry e).dialect =
      (ix.registry e).dialect := by
  induction depth generalizing ix b with
  | zero => rfl
  | succ depth ih =>
      rw [commitWithin_succ]
      dsimp only
      split
      · exact dialect_take ix b e
      · exact (ih (ix.take b).1 (ix.reply b)).trans (dialect_take ix b e)

/-- What each request keeps holds of every index that requests make. -/
theorem Reached.induction {P : Index → Prop} (hempty : ∀ standard, P (empty standard))
    (hstep : ∀ ix guarded d changes, P ix → P (commitWithin answerDepth guarded d changes ix).1)
    {ix : Index} (h : ix.Reached) : P ix := by
  obtain ⟨standard, requests, rfl⟩ := h
  have hrun : ∀ ix : Index, P ix → P (ix.serveAll requests) := by
    induction requests with
    | nil => exact fun ix hix => hix
    | cons q rest ih =>
        intro ix hix
        obtain ⟨guarded, changes, hserve⟩ := serve_eq_commitWithin ix q.1 q.2
        have hnext : P (ix.serve q.1 q.2) := hserve ▸ hstep ix guarded q.1 changes hix
        exact ih _ hnext
  exact hrun _ (hempty standard)

variable {ix : Index} (h : ix.Reached)
include h

theorem Reached.dialect (e : Dialect) : (ix.registry e).dialect = e := by
  refine Reached.induction (P := fun ix => (ix.registry e).dialect = e) (fun standard => ?_)
    (fun ix guarded d changes hix => ?_) h
  · cases e <;> rfl
  · exact (dialect_commitWithin ix answerDepth ⟨d, guarded, changes⟩ e).trans hix

theorem Reached.registry (e : Dialect) : (ix.registry e).Reached := by
  refine Reached.induction (P := fun ix => ∀ e, (ix.registry e).Reached) (fun standard e => ?_)
    (fun ix guarded d changes hix => commitWithin_reached hix answerDepth guarded d changes) h e
  cases e with
  | lwc => exact ⟨.lwc, [], rfl⟩
  | aura => exact ⟨.aura, [], rfl⟩

end Reach

/-- In every index that requests can make a batch leads to itself and to at most one batch that
answers it, which is a guarded one on the aura registry; none is applied twice, and nothing else
can happen. A guarded batch deletes no tag of the dialect of its registry, and the answer deletes no
aura tag. Whatever depth from two on is allowed, a commit is this cascade: it applies each of the
batches once, and tells the events of each once. -/
theorem Reached.cascade_ends {ix : Index} (h : ix.Reached) (b : Batch) :
    let batches := if (ix.reply b).changes = [] then [b] else [b, ix.reply b]
    (∀ others last, Cascade ix b others last ↔ others = batches ∧ last = ix.takeAll batches) ∧
      (ix.reply b).registry = .aura ∧ (ix.reply b).guarded = true ∧ batches.Nodup ∧
      (b.guarded = true → ∀ t, .deleted t ∈ (ix.take b).2 → t.dialect ≠ b.registry) ∧
      (∀ t, .deleted t ∈ ((ix.take b).1.take (ix.reply b)).2 → t.dialect ≠ .aura) ∧
      ∀ depth, commitWithin (depth + 2) b.guarded b.registry b.changes ix =
        (ix.takeAll batches, (ix.take b).2, ix.notices batches) := by
  intro batches
  have haura : ix.aura.dialect = .aura := h.dialect .aura
  refine ⟨fun others last => ?_, rfl, rfl, ?_, fun hguarded t ht => ?_, fun t ht => ?_,
    fun depth => commitWithin_two_le haura b depth⟩
  · by_cases hreply : (ix.reply b).changes = []
    · rw [cascade_iff_of_ends hreply, show batches = [b] from if_pos hreply]
      rfl
    · rw [cascade_iff_of_nests haura hreply, show batches = [b, ix.reply b] from if_neg hreply]
      rfl
  · by_cases hreply : (ix.reply b).changes = []
    · rw [show batches = [b] from if_pos hreply]
      exact List.nodup_singleton b
    · have hne : b ≠ ix.reply b := by
        intro hb
        exact hreply (reply_guarded ix b haura (congrArg Batch.registry hb)
          (congrArg Batch.guarded hb))
      rw [show batches = [b, ix.reply b] from if_neg hreply]
      simpa using hne
  · have hdeleted := dialect_of_deleted ix b hguarded ht
    rwa [h.dialect b.registry] at hdeleted
  · have hdeleted := dialect_of_deleted (ix.take b).1 (ix.reply b) rfl ht
    have haura' : ((ix.take b).1.registry (ix.reply b).registry).dialect = .aura :=
      (dialect_take ix b .aura).trans haura
    rwa [haura'] at hdeleted

/-- A removal from the aura registry that brings two mirrors back, one of them of a tag that claims
to be aura markup: the mirrors come with one guarded batch, and that is all. -/
theorem Reached.cascade_ends_foreign :
    let card : Tag :=
      ⟨⟨"shop", "card", .hyphen⟩, .lwc, ⟨"/shop/card/card.js"⟩, 1, none, none, [], []⟩
    let foreign : Tag :=
      ⟨⟨"shop", "list", .hyphen⟩, .aura, ⟨"/shop/list/list.js"⟩, 2, none, none, [], []⟩
    let other : Tag :=
      ⟨⟨"shop", "card", .colon⟩, .aura, ⟨"/shop/card/card.cmp"⟩, 3, none, none, [], []⟩
    let ix := (empty "c").serveAll
      [(.lwc, .commit [.upsert card, .upsert foreign]), (.aura, .commitMirrored []),
        (.aura, .replaceOwned [foreign.mirror, other])]
    let removal : Batch := ⟨.aura, false, [.remove "shop:list", .remove "shop:card"]⟩
    let restoring : Batch := ⟨.aura, true, [.upsert foreign.mirror, .upsert card.mirror]⟩
    ix.Reached ∧
      (∀ others last, Cascade ix removal others last ↔
        others = [removal, restoring] ∧ last = ix.takeAll [removal, restoring]) ∧
      (ix.takeAll [removal, restoring]).aura.tags = [card.mirror, foreign.mirror] ∧
      commitWithin 7 false .aura removal.changes ix = ix.commit .aura removal.changes := by
  intro card foreign other ix removal restoring
  have hix : ix.Reached := ⟨"c", _, rfl⟩
  have hreply : ix.reply removal = restoring := by decide +kernel
  have hruns := hix.cascade_ends removal
  rw [hreply, if_neg (by simp [restoring])] at hruns
  obtain ⟨hcascade, -, -, -, -, -, hdepth⟩ := hruns
  exact ⟨hix, hcascade, by decide +kernel, (hdepth 5).trans (hdepth 1).symm⟩

end Index

end ComponentAtlas
