import ComponentAtlas.Proofs.Registry.Cascade

/-!
# Requests to a registry and their events

Whatever is asked of a registry, its tags stay in the order of their keys and its namespaces are
those of its tags. The events of a batch tell what it did: replayed on what was held before, they
give what is held behind the batch, and each observer is called with them once.
-/

namespace ComponentAtlas

/-- What callers ask of a registry. -/
inductive Request where
  | commit (changes : List TagChange)
  | commitMirrored (changes : List TagChange)
  | replaceOwned (tags : List Tag)
  | clearOwned
  deriving DecidableEq, Repr

/-- The change that an event reports. -/
def TagEvent.change : TagEvent → TagChange
  | .set t => .upsert t
  | .deleted t => .remove t.key

/-- What is held after some events. -/
def Holdings.replay (h : Holdings) (events : List TagEvent) : Holdings :=
  h.changeAll (events.map TagEvent.change)

namespace Registry

/-- The answer to a request: the registry behind its batch, and the events. -/
def serve (r : Registry) : Request → Registry × List TagEvent
  | .commit changes => r.apply false changes
  | .commitMirrored changes => r.apply true changes
  | .replaceOwned tags => r.apply false (r.replacement tags)
  | .clearOwned => r.apply false (r.replacement [])

/-- The registry behind some requests in order. -/
def serveAll (r : Registry) (requests : List Request) : Registry :=
  requests.foldl (fun r q => (r.serve q).1) r

/-- A registry that some requests make of an empty one. -/
def Reached (r : Registry) : Prop :=
  ∃ d requests, r = (empty d).serveAll requests

/-- A registry in order, with the namespaces of its tags. -/
structure Kept (r : Registry) : Prop where
  ordered : Ordered r.tags
  refreshed : r.Refreshed

theorem kept_empty (d : Dialect) : (empty d).Kept :=
  ⟨.nil, refreshed_empty d⟩

/-- Every request is one batch. -/
theorem serve_eq_apply (r : Registry) (q : Request) :
    ∃ guarded changes, r.serve q = r.apply guarded changes := by
  cases q with
  | commit changes => exact ⟨false, changes, rfl⟩
  | commitMirrored changes => exact ⟨true, changes, rfl⟩
  | replaceOwned tags => exact ⟨false, r.replacement tags, rfl⟩
  | clearOwned => exact ⟨false, r.replacement [], rfl⟩

theorem Kept.apply {r : Registry} (h : r.Kept) (guarded : Bool) (changes : List TagChange) :
    (r.apply guarded changes).1.Kept :=
  ⟨apply_ordered guarded changes h.ordered, apply_refreshed guarded h.refreshed changes⟩

theorem Kept.serveAll {r : Registry} (h : r.Kept) (requests : List Request) :
    (r.serveAll requests).Kept := by
  induction requests generalizing r with
  | nil => exact h
  | cons q rest ih =>
      obtain ⟨guarded, changes, hserve⟩ := serve_eq_apply r q
      have hnext : (r.serve q).1.Kept := by
        rw [hserve]
        exact h.apply guarded changes
      exact ih hnext

theorem serveAll_dialect (r : Registry) (requests : List Request) :
    (r.serveAll requests).dialect = r.dialect := by
  induction requests generalizing r with
  | nil => rfl
  | cons q rest ih =>
      obtain ⟨guarded, changes, hserve⟩ := serve_eq_apply r q
      calc
        _ = (r.serve q).1.dialect := ih _
        _ = r.dialect := by rw [hserve, apply_dialect]

theorem Reached.kept {r : Registry} (h : r.Reached) : r.Kept := by
  obtain ⟨d, requests, rfl⟩ := h
  exact (kept_empty d).serveAll requests

/-- A further batch leads to a registry that requests make too. -/
theorem Reached.apply {r : Registry} (h : r.Reached) (guarded : Bool)
    (changes : List TagChange) : (r.apply guarded changes).1.Reached := by
  obtain ⟨d, requests, rfl⟩ := h
  have hlast : ∃ q : Request, ∀ s : Registry, s.serve q = s.apply guarded changes := by
    cases guarded with
    | false => exact ⟨.commit changes, fun _ => rfl⟩
    | true => exact ⟨.commitMirrored changes, fun _ => rfl⟩
  obtain ⟨q, hq⟩ := hlast
  refine ⟨d, requests ++ [q], ?_⟩
  simp only [Registry.serveAll, List.foldl_append, List.foldl_cons, List.foldl_nil, hq]

theorem mem_namespaces {r : Registry} (h : r.Refreshed) (space : String) :
    space ∈ r.namespaces ↔ ∃ t ∈ r.all, t.identity.space = space := by
  rw [h, spacesOf, List.mem_eraseDups, List.mem_map]
  rfl

section Replay

/-- The event of a change, replayed, does what the change did. -/
theorem replay_applyChange (guarded : Bool) {r : Registry} (h : Ordered r.tags)
    (c : TagChange) :
    (r.applyChange guarded c).1.get? =
      Holdings.replay r.get? (r.applyChange guarded c).2.toList := by
  unfold applyChange
  split
  · rfl
  · cases c with
    | upsert t =>
        funext key
        exact lookup_insertTag t r.tags key
    | remove gone =>
        dsimp only
        cases hold : r.get? gone with
        | none => rfl
        | some old =>
            obtain rfl : old.key = gone := get?_eq_some_key hold
            funext key
            exact lookup_eraseKey h

theorem replay_applyBatch (guarded : Bool) {r : Registry} (h : Ordered r.tags)
    (changes : List TagChange) :
    (r.applyBatch guarded changes).1.get? =
      Holdings.replay r.get? (r.applyBatch guarded changes).2 := by
  induction changes generalizing r with
  | nil => rfl
  | cons c rest ih =>
      have hhead := replay_applyChange guarded h c
      rw [applyBatch_cons, ih (applyChange_ordered guarded r c h), hhead]
      simp only [Holdings.replay, List.map_append, Holdings.changeAll_append]

end Replay

section Silent

/-- A change that does nothing: it removes what is not there, or a guard stops it at an own key. -/
inductive Silent (guarded : Bool) (r : Registry) (c : TagChange) : Prop where
  | absent (key : String) (hc : c = .remove key) (hkey : r.get? key = none)
  | stopped (t : Tag) (hguarded : guarded = true) (hkey : r.get? (changeKey c) = some t)
      (hown : t.dialect = r.dialect)

theorem ownsKey_of_get? {r : Registry} {key : String} {t : Tag} (hkey : r.get? key = some t)
    (hown : t.dialect = r.dialect) : r.ownsKey key = true :=
  ownsKey_iff.mpr ⟨t, own_eq_some.mpr ⟨hkey, hown⟩⟩

theorem Silent.applyChange {guarded : Bool} {r : Registry} {c : TagChange}
    (h : Silent guarded r c) : r.applyChange guarded c = (r, none) := by
  unfold Registry.applyChange
  split
  · rfl
  · next hpass =>
      cases h with
      | absent key hc hkey =>
          subst hc
          simp only [hkey]
      | stopped t hguarded hkey hown =>
          refine absurd ?_ hpass
          rw [hguarded, ownsKey_of_get? hkey hown]
          rfl

/-- Exactly the silent changes have no event. -/
theorem silent_iff {guarded : Bool} {r : Registry} {c : TagChange} :
    (r.applyChange guarded c).2 = none ↔ Silent guarded r c := by
  refine ⟨fun h => ?_, fun h => by rw [h.applyChange]⟩
  unfold Registry.applyChange at h
  split at h
  · next hstop =>
      obtain ⟨hguarded, howns⟩ := Bool.and_eq_true_iff.mp hstop
      obtain ⟨t, ht⟩ := ownsKey_iff.mp howns
      obtain ⟨hkey, hown⟩ := own_eq_some.mp ht
      exact .stopped t hguarded hkey hown
  · cases c with
    | upsert t => cases h
    | remove key =>
        dsimp only at h
        split at h
        · cases h
        · next hkey => exact .absent key rfl hkey

/-- A silent change might as well not be in the batch. -/
theorem Silent.applyBatch {guarded : Bool} {r : Registry} {front back : List TagChange}
    {c : TagChange} (h : Silent guarded (r.applyBatch guarded front).1 c) :
    r.applyBatch guarded (front ++ c :: back) = r.applyBatch guarded (front ++ back) := by
  rw [applyBatch_append, applyBatch_cons, h.applyChange, applyBatch_append]
  rfl

theorem apply_eq_applyBatch {guarded : Bool} {r : Registry} (h : r.Refreshed)
    (changes : List TagChange) : r.apply guarded changes =
      ((r.applyBatch guarded changes).1.refresh, (r.applyBatch guarded changes).2) := by
  cases changes with
  | nil =>
      have hsame : r.refresh = r := by
        rw [refresh, ← h]
      rw [applyBatch_nil, hsame]
      rfl
  | cons c rest => rfl

end Silent

section Guarded

/-- A guarded change leaves the entries of the own dialect. -/
theorem applyChange_guarded_get? {r : Registry} (h : Ordered r.tags) (c : TagChange)
    {key : String} {t : Tag} (hkey : r.get? key = some t) (hown : t.dialect = r.dialect) :
    (r.applyChange true c).1.get? key = some t := by
  rw [applyChange_get? true r c h]
  split
  · exact hkey
  · next hpass =>
      have hne : changeKey c ≠ key := by
        rintro rfl
        exact hpass ⟨rfl, ownsKey_of_get? hkey hown⟩
      rw [Holdings.change_of_ne hne]
      exact hkey

theorem applyBatch_guarded_get? {r : Registry} (h : Ordered r.tags) (changes : List TagChange)
    {key : String} {t : Tag} (hkey : r.get? key = some t) (hown : t.dialect = r.dialect) :
    (r.applyBatch true changes).1.get? key = some t := by
  induction changes generalizing r with
  | nil => exact hkey
  | cons c rest ih =>
      rw [applyBatch_cons]
      refine ih (applyChange_ordered true r c h) (applyChange_guarded_get? h c hkey hown) ?_
      rw [applyChange_dialect, hown]

end Guarded

end Registry

section Observers

variable {σ : Type}

/-- Observers that also note at which place of the list they stand and what they are told. -/
def logged (observers : List (Observer σ)) :
    List (Observer (σ × List (Nat × List TagEvent))) :=
  observers.zipIdx.map fun (observer, place) events (s, log) =>
    (observer events s, log ++ [(place, events)])

/-- Events that are told reach every observer once and in turn; the log starts at any place. -/
theorem foldl_logged (observers : List (Observer σ)) (events : List TagEvent) (place : Nat)
    (s : σ) (log : List (Nat × List TagEvent)) :
    (observers.zipIdx place).foldl
        (fun (s : σ × List (Nat × List TagEvent)) o =>
          (o.1 events s.1, s.2 ++ [(o.2, events)])) (s, log) =
      (observers.foldl (fun s observer => observer events s) s,
        log ++ (List.range' place observers.length).map fun i => (i, events)) := by
  induction observers generalizing place s log with
  | nil => simp
  | cons observer rest ih =>
      rw [List.zipIdx_cons, List.foldl_cons, ih, List.length_cons, List.range'_succ]
      simp

theorem tell_logged (observers : List (Observer σ)) (events : List TagEvent) (s : σ) :
    tell (logged observers) events (s, []) =
      (tell observers events s,
        if events = [] then []
        else (List.range observers.length).map fun i => (i, events)) := by
  unfold tell logged
  by_cases hempty : events = []
  · simp [hempty]
  · have hfold := foldl_logged observers events 0 s []
    rw [List.nil_append, ← List.range_eq_range'] at hfold
    simpa only [List.isEmpty_iff, if_neg hempty, List.foldl_map] using hfold

end Observers

namespace Registry

/-- Behind any requests each tag stands under its own key, the namespaces are those of the tags,
and all tags are listed once in the order of their keys. A further batch then gives events that,
replayed, take the old tags to the new ones; the changes without an event are those that remove
nothing or that a guard stops, and might as well not be in the batch; a guarded batch leaves the
entries of the own dialect; and each observer is called once with exactly the events, or not at
all when there are none. -/
theorem serveAll_represents (d : Dialect) (requests : List Request) :
    let r := (empty d).serveAll requests
    (∀ key t, r.get? key = some t → t.key = key) ∧
    (∀ space, space ∈ r.namespaces ↔ ∃ t ∈ r.all, t.identity.space = space) ∧
    (r.all.Pairwise (fun t u => t.key < u.key) ∧
      ∀ t, t ∈ r.all ↔ ∃ key, r.get? key = some t) ∧
    ∀ guarded changes,
      let next := (r.apply guarded changes).1
      let events := (r.apply guarded changes).2
      next.get? = Holdings.replay r.get? events ∧
      (∀ front c back, changes = front ++ c :: back →
        let before := (r.applyBatch guarded front).1
        ((before.applyChange guarded c).2 = none ↔ Silent guarded before c) ∧
          (Silent guarded before c → (next, events) = r.apply guarded (front ++ back))) ∧
      (guarded = true →
        ∀ key t, r.get? key = some t → t.dialect = d → next.get? key = some t) ∧
      ∀ (σ : Type) (observers : List (Observer σ)) (s : σ),
        tell (logged observers) events (s, []) =
          (tell observers events s,
            if events = [] then []
            else (List.range observers.length).map fun i => (i, events)) := by
  intro r
  have hkept : r.Kept := (kept_empty d).serveAll requests
  have hdialect : r.dialect = d := serveAll_dialect (empty d) requests
  refine ⟨fun key t => get?_eq_some_key, mem_namespaces hkept.refreshed,
    ⟨hkept.ordered, fun t => ⟨fun ht => ?_, fun ⟨key, hkey⟩ => mem_of_lookup hkey⟩⟩, ?_⟩
  · exact ⟨t.key, hkept.ordered.lookup_of_mem ht⟩
  intro guarded changes next events
  refine ⟨?_, ?_, ?_, fun σ observers s => tell_logged observers events s⟩
  · rw [apply_get?, replay_applyBatch guarded hkept.ordered changes, ← apply_events]
  · rintro front c back rfl
    refine ⟨silent_iff, fun hsilent => ?_⟩
    change r.apply guarded (front ++ c :: back) = _
    rw [apply_eq_applyBatch hkept.refreshed, apply_eq_applyBatch hkept.refreshed,
      hsilent.applyBatch]
  · rintro rfl key t hkey hown
    rw [apply_get?]
    exact applyBatch_guarded_get? hkept.ordered changes hkey (hown.trans hdialect.symm)

/-- A mirror that meets an own tag: its change might as well not be in the batch, and the own tag
stays. -/
theorem serveAll_represents_stopped :
    let card : Tag :=
      ⟨⟨"shop", "card", .colon⟩, .aura, ⟨"/shop/card/card.cmp"⟩, 1, none, none, [], []⟩
    let mirror : Tag :=
      ⟨⟨"shop", "card", .colon⟩, .lwc, ⟨"/shop/card/card.js"⟩, 2, none, none, [], []⟩
    let r := (empty .aura).serveAll [.commit [.upsert card], .commitMirrored [.remove "shop:list"]]
    let batch : List TagChange := [.upsert mirror, .upsert { mirror with dialect := .aura }]
    Silent true r (.upsert mirror) ∧ r.get? "shop:card" = some card ∧ card.dialect = .aura ∧
      r.apply true batch = r.apply true batch.tail ∧
        (r.apply true batch).1.get? "shop:card" = some card := by
  intro card mirror r batch
  have hget : r.get? "shop:card" = some card := by decide +kernel
  have hsilent : Silent true r (.upsert mirror) := .stopped card rfl hget rfl
  obtain ⟨-, -, -, hbatch⟩ := serveAll_represents .aura
    [.commit [.upsert card], .commitMirrored [.remove "shop:list"]]
  obtain ⟨-, hdrop, hstays, -⟩ := hbatch true batch
  exact ⟨hsilent, hget, rfl, (hdrop [] (.upsert mirror) batch.tail rfl).2 hsilent,
    hstays rfl "shop:card" card hget rfl⟩

end Registry

namespace Index

open Registry

/-- Both registries of an index stay such as requests make them, whatever batches answer a batch. -/
theorem commitWithin_reached {ix : Index} (h : ∀ e, (ix.registry e).Reached) (depth : Nat)
    (guarded : Bool) (d : Dialect) (changes : List TagChange) :
    ∀ e, ((commitWithin depth guarded d changes ix).1.registry e).Reached := by
  induction depth generalizing ix guarded d changes with
  | zero => exact h
  | succ depth ih =>
      have hbatch : ∀ e, ((ix.withRegistry d
          ((ix.registry d).apply guarded changes).1).registry e).Reached := by
        intro e
        have hnew := (h d).apply guarded changes
        cases d with
        | lwc =>
            cases e with
            | lwc => exact hnew
            | aura => exact h .aura
        | aura =>
            cases e with
            | lwc => exact h .lwc
            | aura => exact hnew
      intro e
      rw [commitWithin]
      simp only [fst_tell]
      split
      · exact hbatch e
      · exact ih hbatch true .aura _ e

theorem ofTags_reached (standard : String) (tags : List Tag) :
    ∀ e, ((ofTags standard tags).registry e).Reached := by
  have hrun : ∀ ix : Index, (∀ e, (ix.registry e).Reached) → ∀ e,
      ((tags.foldl (fun ix t => (ix.commit t.dialect [.upsert t]).1) ix).registry e).Reached := by
    induction tags with
    | nil => exact fun ix h => h
    | cons t rest ih =>
        exact fun ix h => ih _ (commitWithin_reached h answerDepth false t.dialect [.upsert t])
  refine hrun (empty standard) fun e => ?_
  cases e with
  | lwc => exact ⟨.lwc, [], rfl⟩
  | aura => exact ⟨.aura, [], rfl⟩

end Index

end ComponentAtlas
