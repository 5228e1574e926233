import ComponentAtlas.Proofs.Registry.Holdings
import ComponentAtlas.Registry.Index

/-!
# Batches that answer each other

A batch on the registry of web components is answered by one guarded batch of mirrors, a batch on
the aura registry by one guarded batch of restored mirrors, and neither answer is answered again.
What an index holds of either dialect is therefore changed by the batches of that dialect alone.
-/

namespace ComponentAtlas

namespace Registry

/-- What a batch leaves was there before or came with the batch. -/
theorem mem_applyChange {guarded : Bool} {r : Registry} {c : TagChange} {t : Tag}
    (h : t ∈ (r.applyChange guarded c).1.tags) : t ∈ r.tags ∨ c = .upsert t := by
  unfold applyChange at h
  split at h
  · exact .inl h
  · cases c with
    | upsert u =>
        rcases mem_insertTag h with rfl | hmem
        · exact .inr rfl
        · exact .inl hmem
    | remove key =>
        dsimp only at h
        split at h
        · exact .inl ((eraseKey_sublist key r.tags).subset h)
        · exact .inl h

theorem mem_applyBatch {guarded : Bool} {r : Registry} {changes : List TagChange} {t : Tag}
    (h : t ∈ (r.applyBatch guarded changes).1.tags) : t ∈ r.tags ∨ .upsert t ∈ changes := by
  induction changes generalizing r with
  | nil => exact .inl h
  | cons c rest ih =>
      rw [applyBatch_cons] at h
      rcases ih h with hmem | hmem
      · rcases mem_applyChange hmem with hr | rfl
        · exact .inl hr
        · exact .inr List.mem_cons_self
      · exact .inr (List.mem_cons_of_mem _ hmem)

theorem mem_apply {guarded : Bool} {r : Registry} {changes : List TagChange} {t : Tag}
    (h : t ∈ (r.apply guarded changes).1.tags) : t ∈ r.tags ∨ .upsert t ∈ changes :=
  mem_applyBatch (apply_tags guarded r changes ▸ h)

/-- An event that sets a tag comes from a change that brings it. -/
theorem set_of_applyChange {guarded : Bool} {r : Registry} {c : TagChange} {t : Tag}
    (h : (r.applyChange guarded c).2 = some (.set t)) : c = .upsert t := by
  unfold applyChange at h
  split at h
  · cases h
  · cases c with
    | upsert u => cases h; rfl
    | remove key =>
        dsimp only at h
        split at h <;> cases h

theorem set_mem_applyBatch {guarded : Bool} {r : Registry} {changes : List TagChange} {t : Tag}
    (h : .set t ∈ (r.applyBatch guarded changes).2) : .upsert t ∈ changes := by
  induction changes generalizing r with
  | nil => cases h
  | cons c rest ih =>
      rw [applyBatch_cons] at h
      rcases List.mem_append.mp h with hhead | htail
      · exact List.mem_cons.mpr (.inl (set_of_applyChange (by simpa using hhead)).symm)
      · exact List.mem_cons_of_mem _ (ih htail)

/-- A guarded change never deletes an own tag. -/
theorem deleted_of_applyChange_guarded {r : Registry} {c : TagChange} {t : Tag}
    (h : (r.applyChange true c).2 = some (.deleted t)) : t.dialect ≠ r.dialect := by
  unfold applyChange at h
  split at h
  · cases h
  · next hguard =>
      cases c with
      | upsert u => cases h
      | remove key =>
          dsimp only at h
          split at h
          · next old hold =>
              cases h
              intro hd
              refine hguard ?_
              have howns : r.ownsKey key = true :=
                ownsKey_iff.mpr ⟨t, own_eq_some.mpr ⟨hold, hd⟩⟩
              simpa [changeKey] using howns
          · cases h

theorem deleted_mem_applyBatch_guarded {r : Registry} {changes : List TagChange} {t : Tag}
    (h : .deleted t ∈ (r.applyBatch true changes).2) : t.dialect ≠ r.dialect := by
  induction changes generalizing r with
  | nil => cases h
  | cons c rest ih =>
      rw [applyBatch_cons] at h
      rcases List.mem_append.mp h with hhead | htail
      · exact deleted_of_applyChange_guarded (by simpa using hhead)
      · simpa using ih htail

end Registry

namespace Index

open Registry

/-- Nothing comes back when a guarded batch on the aura registry is told. -/
theorem answer_guarded {ix : Index} (haura : ix.aura.dialect = .aura)
    (changes : List TagChange) (other : Index) :
    other.answer .aura (ix.aura.applyBatch true changes).2 = [] := by
  simp only [answer, List.filterMap_eq_nil_iff]
  intro event hevent
  cases event with
  | set t => rfl
  | deleted t =>
      have hd := deleted_mem_applyBatch_guarded hevent
      rw [haura] at hd
      simp [restoring, hd]

/-- The observers of a registry act on an index by the one that answers: counting leaves it. -/
theorem fst_tell (commit : List TagChange → Index → Index × List TagEvent × List Notice)
    (d : Dialect) (events : List TagEvent) (ix : Index) (notices : List Notice) :
    (tell [answering commit d, counting d] events (ix, notices)).1 =
      if ix.answer d events = [] then ix else (commit (ix.answer d events) ix).1 := by
  unfold tell
  split
  · next hempty =>
      rw [List.isEmpty_iff] at hempty
      have hnone : ix.answer d events = [] := by
        cases d <;> simp [answer, hempty]
      rw [if_pos hnone]
  · simp only [List.foldl_cons, List.foldl_nil, counting, answering, List.isEmpty_iff]
    split <;> rfl

/-- A guarded batch on the aura registry is not answered. -/
theorem commitWithin_guarded {ix : Index} (haura : ix.aura.dialect = .aura) (depth : Nat)
    (changes : List TagChange) :
    (commitWithin (depth + 1) true .aura changes ix).1 =
      { ix with aura := (ix.aura.apply true changes).1 } := by
  have hanswer := answer_guarded haura changes
    (ix.withRegistry .aura (ix.aura.apply true changes).1)
  rw [commitWithin]
  simp only [registry, fst_tell, apply_events, hanswer, if_true]
  rfl

/-- A batch with its one answer: the registry that it acts on, and the aura registry behind the
guarded batch that answers its events. -/
theorem commit_eq {ix : Index} (haura : ix.aura.dialect = .aura) (d : Dialect)
    (changes : List TagChange) :
    (ix.commit d changes).1 =
      let done := (ix.registry d).apply false changes
      let ix' := ix.withRegistry d done.1
      { ix' with aura := (ix'.aura.apply true (ix'.answer d done.2)).1 } := by
  have haura' : (ix.withRegistry d ((ix.registry d).apply false changes).1).aura.dialect =
      .aura := by
    cases d with
    | lwc => exact haura
    | aura => simpa [withRegistry, registry] using haura
  unfold commit answerDepth
  rw [commitWithin]
  simp only [fst_tell]
  split
  · next hreply =>
      rw [hreply]
      rfl
  · exact commitWithin_guarded haura' 1 _

theorem commit_lwc {ix : Index} (haura : ix.aura.dialect = .aura) (changes : List TagChange) :
    (ix.commit .lwc changes).1 =
      { ix with
        lwc := (ix.lwc.apply false changes).1
        aura := (ix.aura.apply true
          ((ix.lwc.apply false changes).2.filterMap ix.mirroring)).1 } := by
  rw [commit_eq haura]
  rfl

theorem commit_aura {ix : Index} (haura : ix.aura.dialect = .aura) (changes : List TagChange) :
    (ix.commit .aura changes).1 =
      { ix with
        aura := ((ix.aura.apply false changes).1.apply true
          ((ix.aura.apply false changes).2.filterMap ix.restoring)).1 } := by
  rw [commit_eq haura]
  rfl

/-- Both registries are in order, and that of the web components holds nothing else. -/
structure Sound (ix : Index) : Prop where
  lwc_dialect : ix.lwc.dialect = .lwc
  aura_dialect : ix.aura.dialect = .aura
  lwc_ordered : Ordered ix.lwc.tags
  aura_ordered : Ordered ix.aura.tags
  lwc_refreshed : ix.lwc.Refreshed
  aura_refreshed : ix.aura.Refreshed
  lwc_tags : ∀ t ∈ ix.lwc.tags, t.dialect = .lwc

theorem sound_empty (standard : String) : (empty standard).Sound :=
  ⟨rfl, rfl, .nil, .nil, refreshed_empty _, refreshed_empty _, fun _ h => nomatch h⟩

namespace Sound

theorem dialect {ix : Index} (h : ix.Sound) (d : Dialect) : (ix.registry d).dialect = d := by
  cases d with
  | lwc => exact h.lwc_dialect
  | aura => exact h.aura_dialect

theorem ordered {ix : Index} (h : ix.Sound) (d : Dialect) : Ordered (ix.registry d).tags := by
  cases d with
  | lwc => exact h.lwc_ordered
  | aura => exact h.aura_ordered

theorem refreshed {ix : Index} (h : ix.Sound) (d : Dialect) : (ix.registry d).Refreshed := by
  cases d with
  | lwc => exact h.lwc_refreshed
  | aura => exact h.aura_refreshed

end Sound

/-- What an index holds of a dialect. -/
def own (ix : Index) (d : Dialect) : Holdings :=
  (ix.registry d).own

/-- Only mirrors of web components answer their events. -/
theorem upsert_mem_mirroring {ix : Index} {events : List TagEvent} {t : Tag}
    (h : .upsert t ∈ events.filterMap ix.mirroring) : ∃ u, .set u ∈ events ∧ t = u.mirror := by
  obtain ⟨event, hevent, hmirror⟩ := List.mem_filterMap.mp h
  cases event with
  | set u =>
      refine ⟨u, hevent, ?_⟩
      simp only [mirroring] at hmirror
      split at hmirror
      · simpa using hmirror.symm
      · cases hmirror
  | deleted u =>
      simp only [mirroring] at hmirror
      split at hmirror <;> simp at hmirror

/-- What comes back is the mirror of the web component under the key of the event. -/
theorem restoring_eq_some {ix : Index} {event : TagEvent} {c : TagChange}
    (h : ix.restoring event = some c) :
    ∃ t source, event = .deleted t ∧ ix.lwc.get? source.key = some source ∧
      ix.isMirrored source = true ∧ source.key = t.key ∧ c = .upsert source.mirror := by
  cases event with
  | set t => cases h
  | deleted t =>
      simp only [restoring] at h
      split at h
      · obtain ⟨source, hsource, rfl⟩ := Option.map_eq_some_iff.mp h
        obtain ⟨hget, hm⟩ := Option.filter_eq_some_iff.mp hsource
        have hkey := get?_eq_some_key hget
        exact ⟨t, source, rfl, hkey ▸ hget, hm, hkey, rfl⟩
      · cases h

/-- Only mirrors of registered web components come back. -/
theorem mem_restoring {ix : Index} {events : List TagEvent} {c : TagChange}
    (h : c ∈ events.filterMap ix.restoring) : ∃ u ∈ ix.lwc.tags, c = .upsert u.mirror := by
  obtain ⟨event, -, hrestore⟩ := List.mem_filterMap.mp h
  obtain ⟨t, source, -, hsource, -, -, rfl⟩ := restoring_eq_some hrestore
  exact ⟨source, mem_of_lookup hsource, rfl⟩

section Commit

variable {ix : Index} (h : ix.Sound) {d : Dialect} {changes : List TagChange}
  (hc : Brings d changes)
include h hc

theorem Sound.mirroring_foreign (hd : d = .lwc) :
    ∀ t, .upsert t ∈ (ix.lwc.apply false changes).2.filterMap ix.mirroring →
      t.dialect ≠ ix.aura.dialect := by
  intro t ht
  rw [apply_events] at ht
  obtain ⟨u, hu, rfl⟩ := upsert_mem_mirroring ht
  have hlwc : u.dialect = .lwc := hd ▸ hc u (set_mem_applyBatch hu)
  rw [h.aura_dialect]
  simp [Tag.mirror, hlwc]

omit hc in
theorem Sound.restoring_foreign (events : List TagEvent) :
    ∀ t, .upsert t ∈ events.filterMap ix.restoring → t.dialect ≠ .aura := by
  intro t ht
  obtain ⟨u, hu, he⟩ := mem_restoring ht
  cases he
  simp [Tag.mirror, h.lwc_tags u hu]

/-- A batch of own tags keeps an index sound. -/
theorem Sound.commit : (ix.commit d changes).1.Sound := by
  cases d with
  | lwc =>
      rw [commit_lwc h.aura_dialect]
      refine ⟨?_, ?_, apply_ordered false _ h.lwc_ordered, apply_ordered true _ h.aura_ordered,
        apply_refreshed false h.lwc_refreshed _, apply_refreshed true h.aura_refreshed _,
        fun t ht => ?_⟩
      · simpa using h.lwc_dialect
      · simpa using h.aura_dialect
      · rcases mem_apply ht with hold | hnew
        · exact h.lwc_tags t hold
        · exact hc t hnew
  | aura =>
      rw [commit_aura h.aura_dialect]
      refine ⟨h.lwc_dialect, ?_, h.lwc_ordered,
        apply_ordered true _ (apply_ordered false _ h.aura_ordered), h.lwc_refreshed,
        apply_refreshed true (apply_refreshed false h.aura_refreshed _) _, h.lwc_tags⟩
      simpa using h.aura_dialect

/-- A batch of own tags acts on what is held of its dialect, change by change. -/
theorem Sound.own_commit : (ix.commit d changes).1.own d = (ix.own d).changeAll changes := by
  cases d with
  | lwc =>
      rw [commit_lwc h.aura_dialect]
      exact own_apply h.lwc_ordered (h.lwc_dialect ▸ hc)
  | aura =>
      rw [commit_aura h.aura_dialect]
      have hforeign := h.restoring_foreign (ix.aura.apply false changes).2
      calc
        _ = (ix.aura.apply false changes).1.own :=
          own_apply_guarded (apply_ordered false _ h.aura_ordered)
            (by simpa only [apply_dialect, h.aura_dialect] using hforeign)
        _ = (ix.own .aura).changeAll changes :=
          own_apply h.aura_ordered (h.aura_dialect ▸ hc)

/-- A batch of own tags leaves what is held of the other dialect. -/
theorem Sound.own_commit_of_ne {e : Dialect} (he : e ≠ d) :
    (ix.commit d changes).1.own e = ix.own e := by
  cases d with
  | lwc =>
      cases e with
      | lwc => exact absurd rfl he
      | aura =>
          rw [commit_lwc h.aura_dialect]
          exact own_apply_guarded h.aura_ordered (h.mirroring_foreign hc rfl)
  | aura =>
      cases e with
      | aura => exact absurd rfl he
      | lwc =>
          rw [commit_aura h.aura_dialect]
          rfl

end Commit

section Replace

variable {ix : Index} (h : ix.Sound) {d : Dialect} {tags : List Tag}
  (ht : ∀ t ∈ tags, t.dialect = d)
include h ht

theorem Sound.replaceOwned : (ix.replaceOwned d tags).1.Sound :=
  h.commit (brings_replacement ht)

/-- What is held after a replacement is the last tag of each key. -/
theorem Sound.own_replaceOwned : (ix.replaceOwned d tags).1.own d = Holdings.ofTags tags := by
  have hown : (ix.replaceOwned d tags).1.own d =
      (ix.own d).changeAll ((ix.registry d).replacement tags) :=
    h.own_commit (brings_replacement ht)
  exact hown.trans (own_changeAll_replacement (h.ordered d) tags)

theorem Sound.own_replaceOwned_of_ne {e : Dialect} (he : e ≠ d) :
    (ix.replaceOwned d tags).1.own e = ix.own e :=
  h.own_commit_of_ne (brings_replacement ht) he

end Replace

@[simp] theorem standard_commit {ix : Index} (h : ix.Sound) (d : Dialect)
    (changes : List TagChange) : (ix.commit d changes).1.standard = ix.standard := by
  rw [commit_eq h.aura_dialect]
  cases d <;> rfl

theorem commit_nil (ix : Index) (d : Dialect) : (ix.commit d []).1 = ix := by
  cases d <;> rfl

/-- The tags of each registry have some property. -/
def Each (P : Dialect → Tag → Prop) (ix : Index) : Prop :=
  ∀ d, ∀ t ∈ (ix.registry d).tags, P d t

theorem each_empty {P : Dialect → Tag → Prop} (standard : String) : Each P (empty standard) := by
  intro d t ht
  cases d <;> cases ht

/-- A batch of tags with a property leaves it to all tags, if mirrors inherit it. -/
theorem Each.commit {P : Dialect → Tag → Prop} (hmirror : ∀ t, P .lwc t → P .aura t.mirror)
    {ix : Index} (haura : ix.aura.dialect = .aura) (h : Each P ix) {d : Dialect}
    {changes : List TagChange} (hc : ∀ t, .upsert t ∈ changes → P d t) :
    Each P (ix.commit d changes).1 := by
  have hbatch : ∀ t ∈ ((ix.registry d).apply false changes).1.tags, P d t := by
    intro t ht
    rcases mem_apply ht with hold | hnew
    · exact h d t hold
    · exact hc t hnew
  cases d with
  | lwc =>
      rw [commit_lwc haura]
      intro e t ht
      cases e with
      | lwc => exact hbatch t ht
      | aura =>
          rcases mem_apply ht with hold | hnew
          · exact h .aura t hold
          · rw [apply_events] at hnew
            obtain ⟨u, hu, rfl⟩ := upsert_mem_mirroring hnew
            exact hmirror u (hc u (set_mem_applyBatch hu))
  | aura =>
      rw [commit_aura haura]
      intro e t ht
      cases e with
      | lwc => exact h .lwc t ht
      | aura =>
          rcases mem_apply ht with hold | hnew
          · exact hbatch t hold
          · obtain ⟨u, hu, he⟩ := mem_restoring hnew
            cases he
            exact hmirror u (h .lwc u hu)

/-- A property that mirrors inherit holds of all tags of both registries. -/
def All (P : Tag → Prop) (ix : Index) : Prop :=
  ∀ d, ∀ t ∈ (ix.registry d).tags, P t

theorem All.commit {P : Tag → Prop} (hmirror : ∀ t, P t → P t.mirror) {ix : Index}
    (haura : ix.aura.dialect = .aura) (h : All P ix) {d : Dialect} {changes : List TagChange}
    (hc : ∀ t, .upsert t ∈ changes → P t) : All P (ix.commit d changes).1 :=
  Each.commit hmirror haura h hc

end Index

end ComponentAtlas
