import ComponentAtlas.Proofs.Registry.Order
import Mathlib.Data.List.Nodup

/-!
# What a registry holds

A registry is seen as a map from keys to tags. Each change acts on one key of that map. The own
part of a registry keeps the tags of its dialect only: a plain batch of own tags acts on it
change by change, and a guarded batch of foreign tags does not touch it. The namespaces that a
registry remembers do not matter for what it holds, and each batch sets them anew.
-/

namespace ComponentAtlas

/-- Which tag each key holds. -/
abbrev Holdings := String → Option Tag

namespace Holdings

/-- Nothing is held. -/
def none : Holdings := fun _ => .none

/-- What is held after a change. -/
def change (h : Holdings) : TagChange → Holdings
  | .upsert t => fun key => if t.key = key then some t else h key
  | .remove gone => fun key => if gone = key then .none else h key

/-- What is held after some changes in order. -/
def changeAll (h : Holdings) (changes : List TagChange) : Holdings :=
  changes.foldl change h

/-- The last of some tags for each key. -/
def ofTags (tags : List Tag) : Holdings :=
  none.changeAll (tags.map .upsert)

/-- What is held of the tags that satisfy a test. -/
def only (h : Holdings) (p : Tag → Bool) : Holdings :=
  fun key => (h key).filter p

theorem change_of_ne {h : Holdings} {c : TagChange} {key : String}
    (hkey : Registry.changeKey c ≠ key) : h.change c key = h key := by
  cases c with
  | upsert t => exact if_neg hkey
  | remove gone => exact if_neg hkey

@[simp] theorem changeAll_nil (h : Holdings) : h.changeAll [] = h := rfl

@[simp] theorem changeAll_cons (h : Holdings) (c : TagChange) (changes : List TagChange) :
    h.changeAll (c :: changes) = (h.change c).changeAll changes := rfl

@[simp] theorem changeAll_append (h : Holdings) (front back : List TagChange) :
    h.changeAll (front ++ back) = (h.changeAll front).changeAll back :=
  List.foldl_append

/-- What is held after some changes was held before or came with one of them. -/
theorem changeAll_eq_some {h : Holdings} {changes : List TagChange} {key : String} {t : Tag}
    (ht : h.changeAll changes key = some t) : h key = some t ∨ .upsert t ∈ changes := by
  induction changes generalizing h with
  | nil => exact .inl ht
  | cons c rest ih =>
      rcases ih ht with hold | hnew
      · cases c with
        | upsert u =>
            simp only [change] at hold
            split at hold
            · obtain rfl := Option.some.inj hold
              exact .inr List.mem_cons_self
            · exact .inl hold
        | remove gone =>
            simp only [change] at hold
            split at hold
            · cases hold
            · exact .inl hold
      · exact .inr (List.mem_cons_of_mem _ hnew)

/-- Removals leave nothing under the keys that they name, and all else as it was. -/
theorem changeAll_remove (h : Holdings) (keys : List String) (key : String) :
    h.changeAll (keys.map .remove) key = if key ∈ keys then .none else h key := by
  induction keys generalizing h with
  | nil => simp
  | cons gone rest ih =>
      rw [List.map_cons, changeAll_cons, ih]
      by_cases hr : key ∈ rest
      · simp [hr]
      · by_cases hg : gone = key
        · simp [change, hg]
        · simp [change, hr, hg, Ne.symm hg]

/-- Tags that come in a row: the last of a key is held, and keys without one are as before. -/
theorem changeAll_upsert (h : Holdings) (tags : List Tag) (key : String) :
    h.changeAll (tags.map .upsert) key =
      (tags.reverse.find? fun t => t.key == key).or (h key) := by
  induction tags generalizing h with
  | nil => simp
  | cons t rest ih =>
      rw [List.map_cons, changeAll_cons, ih, List.reverse_cons, List.find?_append]
      cases hrest : rest.reverse.find? fun t => t.key == key with
      | some u => simp
      | none => by_cases ht : t.key = key <;> simp [change, ht]

theorem ofTags_apply (tags : List Tag) (key : String) :
    ofTags tags key = tags.reverse.find? fun t => t.key == key := by
  simp [ofTags, changeAll_upsert, none]

theorem ofTags_mem {tags : List Tag} {key : String} {t : Tag} (h : ofTags tags key = some t) :
    t ∈ tags ∧ t.key = key := by
  rw [ofTags_apply] at h
  exact ⟨by simpa using List.mem_of_find?_eq_some h, by simpa using List.find?_some h⟩

theorem ofTags_eq_none {tags : List Tag} {key : String} :
    ofTags tags key = .none ↔ ∀ t ∈ tags, t.key ≠ key := by
  simp [ofTags_apply]

end Holdings

namespace Registry

/-- What a registry holds of its own dialect. -/
def own (r : Registry) : Holdings :=
  Holdings.only r.get? fun t => t.dialect == r.dialect

theorem own_eq_some {r : Registry} {key : String} {t : Tag} :
    r.own key = some t ↔ r.get? key = some t ∧ t.dialect = r.dialect := by
  simp [own, Holdings.only]

theorem own_key {r : Registry} {key : String} {t : Tag} (h : r.own key = some t) :
    t.key = key :=
  get?_eq_some_key (own_eq_some.mp h).1

theorem ownsKey_iff {r : Registry} {key : String} :
    r.ownsKey key = true ↔ ∃ t, r.own key = some t := by
  simp only [ownsKey, Option.any_eq_true, own_eq_some, beq_iff_eq]

theorem own_eq_none_of_not_ownsKey {r : Registry} {key : String} (h : ¬r.ownsKey key = true) :
    r.own key = none := by
  cases ht : r.own key with
  | none => rfl
  | some t => exact absurd (ownsKey_iff.mpr ⟨t, ht⟩) h

theorem own_eq_none_of_get? {r : Registry} {key : String} (h : r.get? key = none) :
    r.own key = none := by
  simp [own, Holdings.only, h]

section Change

variable (guarded : Bool) (r : Registry) (c : TagChange)

@[simp] theorem applyChange_dialect : (r.applyChange guarded c).1.dialect = r.dialect := by
  unfold applyChange
  split
  · rfl
  · cases c with
    | upsert t => rfl
    | remove key => dsimp only; split <;> rfl

theorem applyChange_ordered (h : Ordered r.tags) :
    Ordered (r.applyChange guarded c).1.tags := by
  unfold applyChange
  split
  · exact h
  · cases c with
    | upsert t => exact ordered_insertTag h
    | remove key =>
        dsimp only
        split
        · exact ordered_eraseKey h
        · exact h

/-- A change that a guard stops does nothing, any other acts on its key. -/
theorem applyChange_get? (h : Ordered r.tags) :
    (r.applyChange guarded c).1.get? =
      if guarded = true ∧ r.ownsKey (changeKey c) = true then r.get?
      else Holdings.change r.get? c := by
  unfold applyChange
  by_cases hg : guarded = true ∧ r.ownsKey (changeKey c) = true
  · simp [hg.1, hg.2]
  · rw [if_neg (by simpa using hg), if_neg hg]
    funext key
    cases c with
    | upsert t => exact lookup_insertTag t r.tags key
    | remove gone =>
        dsimp only
        cases hold : r.get? gone with
        | some old => exact lookup_eraseKey h
        | none =>
            by_cases hk : gone = key
            · simp [Holdings.change, ← hk, hold]
            · simp [Holdings.change, hk]

end Change

@[simp] theorem applyBatch_nil (guarded : Bool) (r : Registry) :
    r.applyBatch guarded [] = (r, []) := rfl

theorem applyBatch_cons (guarded : Bool) (r : Registry) (c : TagChange)
    (changes : List TagChange) :
    r.applyBatch guarded (c :: changes) =
      (((r.applyChange guarded c).1.applyBatch guarded changes).1,
        (r.applyChange guarded c).2.toList ++
          ((r.applyChange guarded c).1.applyBatch guarded changes).2) := rfl

theorem applyBatch_append (guarded : Bool) (r : Registry) (front back : List TagChange) :
    r.applyBatch guarded (front ++ back) =
      (((r.applyBatch guarded front).1.applyBatch guarded back).1,
        (r.applyBatch guarded front).2 ++
          ((r.applyBatch guarded front).1.applyBatch guarded back).2) := by
  induction front generalizing r with
  | nil => rfl
  | cons c rest ih => simp only [List.cons_append, applyBatch_cons, ih, List.append_assoc]

@[simp] theorem applyBatch_dialect (guarded : Bool) (r : Registry) (changes : List TagChange) :
    (r.applyBatch guarded changes).1.dialect = r.dialect := by
  induction changes generalizing r with
  | nil => rfl
  | cons c rest ih => rw [applyBatch_cons, ih, applyChange_dialect]

theorem applyBatch_ordered (guarded : Bool) {r : Registry} (h : Ordered r.tags)
    (changes : List TagChange) : Ordered (r.applyBatch guarded changes).1.tags := by
  induction changes generalizing r with
  | nil => exact h
  | cons c rest ih => exact ih (applyChange_ordered guarded r c h)

section Apply

variable (guarded : Bool) (r : Registry) (changes : List TagChange)

/-- A batch holds what its changes leave, whatever is remembered of the namespaces. -/
@[simp] theorem apply_tags :
    (r.apply guarded changes).1.tags = (r.applyBatch guarded changes).1.tags := by
  cases changes <;> rfl

@[simp] theorem apply_events :
    (r.apply guarded changes).2 = (r.applyBatch guarded changes).2 := by
  cases changes <;> rfl

@[simp] theorem apply_dialect : (r.apply guarded changes).1.dialect = r.dialect := by
  cases changes with
  | nil => rfl
  | cons c rest => exact applyBatch_dialect guarded r (c :: rest)

theorem apply_get? :
    (r.apply guarded changes).1.get? = (r.applyBatch guarded changes).1.get? := by
  funext key
  rw [get?_eq_lookup, get?_eq_lookup, apply_tags]

theorem apply_own : (r.apply guarded changes).1.own = (r.applyBatch guarded changes).1.own := by
  rw [own, own, apply_get?, apply_dialect, applyBatch_dialect]

theorem apply_ordered {r : Registry} (h : Ordered r.tags) :
    Ordered (r.apply guarded changes).1.tags := by
  rw [apply_tags]
  exact applyBatch_ordered guarded h changes

end Apply

/-- The namespaces that a registry remembers are those of its tags. -/
def Refreshed (r : Registry) : Prop :=
  r.namespaces = spacesOf r.tags

theorem refreshed_empty (d : Dialect) : (empty d).Refreshed := rfl

/-- A batch refreshes the namespaces, unless it is empty. -/
theorem apply_refreshed (guarded : Bool) {r : Registry} (h : r.Refreshed)
    (changes : List TagChange) : (r.apply guarded changes).1.Refreshed := by
  cases changes with
  | nil => exact h
  | cons c rest => rfl

/-- The dialect of each tag that a change brings. -/
def Brings (d : Dialect) (changes : List TagChange) : Prop :=
  ∀ t, .upsert t ∈ changes → t.dialect = d

theorem Brings.head {d : Dialect} {c : TagChange} {changes : List TagChange}
    (h : Brings d (c :: changes)) : ∀ t, c = .upsert t → t.dialect = d :=
  fun t ht => h t (ht ▸ List.mem_cons_self)

theorem Brings.tail {d : Dialect} {c : TagChange} {changes : List TagChange}
    (h : Brings d (c :: changes)) : Brings d changes :=
  fun t ht => h t (List.mem_cons_of_mem _ ht)

/-- A plain change of an own tag acts on the own part. -/
theorem own_applyChange {r : Registry} (h : Ordered r.tags) {c : TagChange}
    (hc : ∀ t, c = .upsert t → t.dialect = r.dialect) :
    (r.applyChange false c).1.own = r.own.change c := by
  funext key
  unfold own Holdings.only
  rw [applyChange_get? false r c h, applyChange_dialect, if_neg (by simp)]
  cases c with
  | upsert t =>
      by_cases ht : t.key = key
      · simp [Holdings.change, ht, hc t rfl]
      · simp [Holdings.change, ht]
  | remove gone => by_cases hg : gone = key <;> simp [Holdings.change, hg]

/-- A guarded change of a foreign tag leaves the own part alone. -/
theorem own_applyChange_guarded {r : Registry} (h : Ordered r.tags) {c : TagChange}
    (hc : ∀ t, c = .upsert t → t.dialect ≠ r.dialect) :
    (r.applyChange true c).1.own = r.own := by
  by_cases howns : r.ownsKey (changeKey c) = true
  · unfold own Holdings.only
    rw [applyChange_get? true r c h, applyChange_dialect, if_pos ⟨rfl, howns⟩]
  · funext key
    have hnone := own_eq_none_of_not_ownsKey howns
    unfold own Holdings.only at hnone ⊢
    rw [applyChange_get? true r c h, applyChange_dialect, if_neg (by simp [howns])]
    cases c with
    | upsert t =>
        by_cases ht : t.key = key
        · subst ht
          rw [show Option.filter _ (r.get? t.key) = none from hnone]
          simp [Holdings.change, Option.filter_some, hc t rfl]
        · simp [Holdings.change, ht]
    | remove gone =>
        by_cases hg : gone = key
        · subst hg
          simpa [Holdings.change, changeKey] using hnone.symm
        · simp [Holdings.change, hg]

theorem own_applyBatch {r : Registry} (h : Ordered r.tags) {changes : List TagChange}
    (hc : Brings r.dialect changes) :
    (r.applyBatch false changes).1.own = r.own.changeAll changes := by
  induction changes generalizing r with
  | nil => rfl
  | cons c rest ih =>
      rw [applyBatch_cons, Holdings.changeAll_cons, ← own_applyChange h hc.head]
      refine ih (applyChange_ordered false r c h) ?_
      rw [applyChange_dialect]
      exact hc.tail

theorem own_applyBatch_guarded {r : Registry} (h : Ordered r.tags) {changes : List TagChange}
    (hc : ∀ t, .upsert t ∈ changes → t.dialect ≠ r.dialect) :
    (r.applyBatch true changes).1.own = r.own := by
  induction changes generalizing r with
  | nil => rfl
  | cons c rest ih =>
      have hhead : ∀ t, c = .upsert t → t.dialect ≠ r.dialect :=
        fun t ht => hc t (ht ▸ List.mem_cons_self)
      rw [applyBatch_cons, ← own_applyChange_guarded h hhead]
      refine ih (applyChange_ordered true r c h) ?_
      rw [applyChange_dialect]
      exact fun t ht => hc t (List.mem_cons_of_mem _ ht)

theorem own_apply {r : Registry} (h : Ordered r.tags) {changes : List TagChange}
    (hc : Brings r.dialect changes) :
    (r.apply false changes).1.own = r.own.changeAll changes := by
  rw [apply_own, own_applyBatch h hc]

theorem own_apply_guarded {r : Registry} (h : Ordered r.tags) {changes : List TagChange}
    (hc : ∀ t, .upsert t ∈ changes → t.dialect ≠ r.dialect) :
    (r.apply true changes).1.own = r.own := by
  rw [apply_own, own_applyBatch_guarded h hc]

/-- The own tags are those of the own part. -/
theorem mem_owned_iff {r : Registry} (h : Ordered r.tags) {t : Tag} :
    t ∈ r.owned ↔ r.own t.key = some t := by
  rw [own_eq_some, owned, List.mem_filter, h.mem_iff_lookup, beq_iff_eq, get?_eq_lookup]

theorem ordered_owned {r : Registry} (h : Ordered r.tags) : Ordered r.owned :=
  List.Pairwise.filter _ h

theorem lookup_owned {r : Registry} (h : Ordered r.tags) (key : String) :
    lookup r.owned key = r.own key := by
  cases ht : r.own key with
  | some t =>
      have hmem := (mem_owned_iff h (t := t)).mpr ((own_key ht).symm ▸ ht)
      exact own_key ht ▸ (ordered_owned h).lookup_of_mem hmem
  | none =>
      refine lookup_eq_none.mpr fun t hmem hkey => ?_
      rw [mem_owned_iff h, hkey, ht] at hmem
      cases hmem

/-- Putting tags in place of all own ones leaves the last of each key. -/
theorem own_changeAll_replacement {r : Registry} (h : Ordered r.tags) (tags : List Tag) :
    r.own.changeAll (r.replacement tags) = Holdings.ofTags tags := by
  funext key
  rw [replacement, Holdings.changeAll_append, Holdings.changeAll_upsert, Holdings.ofTags_apply,
    Holdings.changeAll_remove]
  cases hfind : tags.reverse.find? fun t => t.key == key with
  | some t => simp
  | none =>
      have hstale : key ∉ tags.map Tag.key := by
        simpa [List.find?_eq_none] using hfind
      rw [Option.none_or, ite_eq_left_iff]
      intro hkey
      cases ht : r.own key with
      | none => rfl
      | some t =>
          refine absurd ?_ hkey
          have hk := own_key ht
          simp only [staleKeys, List.mem_filter, List.mem_map, Bool.not_eq_true',
            List.contains_eq_mem, decide_eq_false_iff_not]
          exact ⟨⟨t, (mem_owned_iff h).mpr (hk.symm ▸ ht), hk⟩, by simpa using hstale⟩

theorem upsert_mem_replacement {r : Registry} {tags : List Tag} {t : Tag}
    (h : .upsert t ∈ r.replacement tags) : t ∈ tags := by
  rcases List.mem_append.mp h with hgone | hcome
  · obtain ⟨key, -, hkey⟩ := List.mem_map.mp hgone
    cases hkey
  · obtain ⟨u, hu, hut⟩ := List.mem_map.mp hcome
    cases hut
    exact hu

theorem brings_replacement {d : Dialect} {r : Registry} {tags : List Tag}
    (h : ∀ t ∈ tags, t.dialect = d) : Brings d (r.replacement tags) :=
  fun t ht => h t (upsert_mem_replacement ht)

end Registry

end ComponentAtlas
