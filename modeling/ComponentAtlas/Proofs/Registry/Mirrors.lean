import ComponentAtlas.Proofs.Registry.Cascade

/-!
# Mirrors after any run

However the operations on the two registries interleave, the aura registry shows its own tags and,
under the keys that are left, the mirrors of the web components outside the standard namespace.
The two lists of operations therefore determine the index, and not the order in which they meet.
-/

namespace ComponentAtlas

namespace Identity

/-- Namespaces without a colon can be read off the key. -/
theorem space_eq_of_key {i j : Identity} (hi : ':' ∉ i.space.toList)
    (hj : ':' ∉ j.space.toList) (h : i.key = j.key) : i.space = j.space := by
  have hlist : i.space.toList ++ ':' :: i.localName.toList =
      j.space.toList ++ ':' :: j.localName.toList := by
    have hchars := congrArg String.toList h
    simpa [key, keyOf] using hchars
  have hinside : ∀ space : String, ':' ∉ space.toList →
      ∀ c ∈ space.toList, (c != ':') = true := by
    intro space hspace c hc
    exact bne_iff_ne.mpr fun e => hspace (e ▸ hc)
  have htake := congrArg (List.takeWhile (· != ':')) hlist
  rw [List.takeWhile_append_of_pos (hinside _ hi),
    List.takeWhile_append_of_pos (hinside _ hj)] at htake
  exact String.toList_inj.mp (by simpa using htake)

end Identity

/-- The mirror is registered under the key of its source. -/
@[simp] theorem Tag.key_mirror (t : Tag) : t.mirror.key = t.key := rfl

/-- A tag of a dialect whose namespace can be told from its key. -/
def Tag.Plain (d : Dialect) (t : Tag) : Prop :=
  t.dialect = d ∧ ':' ∉ t.identity.space.toList

namespace Holdings

@[simp] theorem change_upsert_self (h : Holdings) (t : Tag) :
    h.change (.upsert t) t.key = some t :=
  if_pos rfl

@[simp] theorem change_remove_self (h : Holdings) (key : String) :
    h.change (.remove key) key = .none :=
  if_pos rfl

/-- The mirrors of what is held outside the standard namespace. -/
def mirrored (standard : String) (lwc : Holdings) : Holdings := fun key =>
  ((lwc key).filter fun t => t.identity.space != standard).map Tag.mirror

/-- What the aura registry shows: own tags, and mirrors where there is none. -/
def shown (standard : String) (lwc aura : Holdings) : Holdings := fun key =>
  (aura key).or (mirrored standard lwc key)

theorem shown_eq_of_some {standard : String} {lwc aura : Holdings} {key : String} {t : Tag}
    (h : aura key = some t) : shown standard lwc aura key = some t := by
  simp [shown, h]

theorem mirrored_congr {standard : String} {h h' : Holdings} {key : String}
    (hkey : h key = h' key) : mirrored standard h key = mirrored standard h' key := by
  rw [mirrored, mirrored, hkey]

theorem shown_eq_of_none {standard : String} {lwc aura : Holdings} {key : String}
    (h : aura key = .none) : shown standard lwc aura key = mirrored standard lwc key := by
  simp [shown, h]

end Holdings

namespace Registry

/-- No removal of a batch finds a tag of another dialect. -/
def SparesMirrors (r : Registry) : List TagChange → Prop
  | [] => True
  | c :: rest =>
      (∀ key t, c = .remove key → r.get? key = some t → t.dialect = r.dialect) ∧
        SparesMirrors (r.applyChange false c).1 rest

end Registry

namespace Index

open Registry

section Mirroring

variable {ix : Index} {lwc aura : Registry}

/-- The web components of a registry: in order, of that dialect and with plain namespaces. -/
structure Components (lwc : Registry) : Prop where
  dialect : lwc.dialect = .lwc
  ordered : Ordered lwc.tags
  plain : ∀ t ∈ lwc.tags, t.Plain .lwc

theorem Components.applyChange (h : Components lwc) {c : TagChange}
    (hc : ∀ t, c = .upsert t → t.Plain .lwc) : Components (lwc.applyChange false c).1 := by
  refine ⟨?_, applyChange_ordered false lwc c h.ordered, fun t ht => ?_⟩
  · rw [applyChange_dialect, h.dialect]
  · rcases mem_applyChange ht with hold | hnew
    · exact h.plain t hold
    · exact hc t hnew

theorem Components.applyChange_get? (h : Components lwc) (c : TagChange) :
    (lwc.applyChange false c).1.get? = Holdings.change lwc.get? c := by
  rw [Registry.applyChange_get? false lwc c h.ordered, if_neg (by simp)]

/-- A change that makes the mirror of its key what it is behind a change of the web components. -/
structure Answers (ix : Index) (lwc : Registry) (c answer : TagChange) : Prop where
  key : changeKey answer = changeKey c
  mirrors : ∀ t, answer = .upsert t → t.dialect = .lwc
  gives : ∀ h : Holdings, h.change answer (changeKey c) =
    Holdings.mirrored ix.standard (lwc.applyChange false c).1.get? (changeKey c)

variable (ix) in
/-- A change of the web components is answered at its key, or does not touch the mirrors. -/
theorem mirroring_applyChange {c : TagChange} (hlwc : Components lwc)
    (hc : ∀ t, c = .upsert t → t.Plain .lwc) :
    (∃ answer, (lwc.applyChange false c).2.toList.filterMap ix.mirroring = [answer] ∧
      Answers ix lwc c answer) ∨
    ((lwc.applyChange false c).2.toList.filterMap ix.mirroring = [] ∧
      Holdings.mirrored ix.standard (lwc.applyChange false c).1.get? =
        Holdings.mirrored ix.standard lwc.get?) := by
  have hget := hlwc.applyChange_get? c
  cases c with
  | upsert t =>
      obtain ⟨hdialect, hspace⟩ := hc t rfl
      by_cases hm : (t.identity.space != ix.standard) = true
      · refine .inl ⟨.upsert t.mirror, ?_, rfl, ?_, fun h => ?_⟩
        · simp [applyChange, mirroring, isMirrored, hm]
        · rintro u ⟨⟩
          exact hdialect
        · rw [hget]
          simp [Holdings.mirrored, changeKey, Option.filter_some, hm, Holdings.change]
      · refine .inr ⟨?_, ?_⟩
        · simp [applyChange, mirroring, isMirrored, hm]
        · rw [hget]
          funext key
          by_cases hk : t.key = key
          · -- What the key held before stood in the standard namespace too.
            subst hk
            cases hold : lwc.get? t.key with
            | none => simp [Holdings.mirrored, hold, Option.filter_some, hm]
            | some old =>
                have hplain := (hlwc.plain old (mem_of_lookup hold)).2
                have hsame := Identity.space_eq_of_key hplain hspace (get?_eq_some_key hold)
                simp [Holdings.mirrored, hold, Option.filter_some, hsame, hm]
          · exact Holdings.mirrored_congr (Holdings.change_of_ne hk)
  | remove gone =>
      cases hold : lwc.get? gone with
      | none =>
          refine .inr ⟨?_, ?_⟩
          · simp [applyChange, hold]
          · simp [applyChange, hold]
      | some old =>
          have hkey : old.key = gone := get?_eq_some_key hold
          by_cases hm : (old.identity.space != ix.standard) = true
          · refine .inl ⟨.remove old.key, ?_, hkey, ?_, fun h => ?_⟩
            · simp [applyChange, hold, mirroring, isMirrored, hm]
            · rintro u ⟨⟩
            · rw [hget]
              simp [Holdings.mirrored, changeKey, hkey]
          · refine .inr ⟨?_, ?_⟩
            · simp [applyChange, hold, mirroring, isMirrored, hm]
            · rw [hget]
              funext key
              by_cases hk : gone = key
              · subst hk
                simp [Holdings.mirrored, hold, Option.filter_some, hm]
              · exact Holdings.mirrored_congr (Holdings.change_of_ne hk)

variable (ix) in
/-- A change of the web components and its answer keep the mirrors in agreement. -/
theorem shown_applyChange {c : TagChange} (hlwc : Components lwc)
    (haura : aura.dialect = .aura) (hordered : Ordered aura.tags)
    (hc : ∀ t, c = .upsert t → t.Plain .lwc)
    (hshown : aura.get? = Holdings.shown ix.standard lwc.get? aura.own) :
    let r := lwc.applyChange false c
    let a := (aura.applyBatch true (r.2.toList.filterMap ix.mirroring)).1
    a.get? = Holdings.shown ix.standard r.1.get? a.own := by
  intro r a
  rcases mirroring_applyChange ix hlwc hc with ⟨answer, hanswer, h⟩ | ⟨hnone, hsame⟩
  · have hforeign : ∀ t, answer = .upsert t → t.dialect ≠ aura.dialect := by
      intro t ht
      rw [h.mirrors t ht, haura]
      decide
    have ha : a = (aura.applyChange true answer).1 := by
      simp only [a, r, hanswer, applyBatch_cons, applyBatch_nil]
    rw [ha, own_applyChange_guarded hordered hforeign, Registry.applyChange_get? true _ _ hordered]
    funext key
    by_cases hk : changeKey c = key
    · subst hk
      rw [h.key]
      by_cases howns : aura.ownsKey (changeKey c) = true
      · obtain ⟨t, ht⟩ := ownsKey_iff.mp howns
        rw [if_pos ⟨rfl, howns⟩, Holdings.shown_eq_of_some ht, (own_eq_some.mp ht).1]
      · rw [if_neg (by simp [howns]), h.gives,
          Holdings.shown_eq_of_none (own_eq_none_of_not_ownsKey howns)]
    · have hbefore : Holdings.shown ix.standard r.1.get? aura.own key = aura.get? key := by
        rw [hshown, Holdings.shown, Holdings.shown, hlwc.applyChange_get? c,
          Holdings.mirrored_congr (Holdings.change_of_ne hk)]
      rw [hbefore]
      split
      · rfl
      · exact Holdings.change_of_ne (h.key ▸ hk)
  · have ha : a = aura := by
      simp only [a, r, hnone, applyBatch_nil]
    rw [ha, hshown]
    funext key
    rw [Holdings.shown, Holdings.shown, hsame]

/-- A batch on the web components with its answer keeps the mirrors in agreement. -/
theorem shown_applyBatch {changes : List TagChange} (hlwc : Components lwc)
    (haura : aura.dialect = .aura) (hordered : Ordered aura.tags)
    (hc : ∀ t, .upsert t ∈ changes → t.Plain .lwc)
    (hshown : aura.get? = Holdings.shown ix.standard lwc.get? aura.own) :
    let r := lwc.applyBatch false changes
    let a := (aura.applyBatch true (r.2.filterMap ix.mirroring)).1
    a.get? = Holdings.shown ix.standard r.1.get? a.own := by
  induction changes generalizing lwc aura with
  | nil => exact hshown
  | cons c rest ih =>
      have hhead : ∀ t, c = .upsert t → t.Plain .lwc :=
        fun t ht => hc t (ht ▸ List.mem_cons_self)
      have hstep := shown_applyChange ix hlwc haura hordered hhead hshown
      have hrest := ih (hlwc.applyChange hhead) (by rw [applyBatch_dialect, haura])
        (applyBatch_ordered true hordered _)
        (fun t ht => hc t (List.mem_cons_of_mem _ ht)) hstep
      intro r a
      have ha : a = (((aura.applyBatch true
          ((lwc.applyChange false c).2.toList.filterMap ix.mirroring)).1).applyBatch true
            (((lwc.applyChange false c).1.applyBatch false rest).2.filterMap ix.mirroring)).1 := by
        simp only [a, r, applyBatch_cons, List.filterMap_append, applyBatch_append]
      rw [ha]
      exact hrest

end Mirroring

section Restoring

variable {ix : Index} {r : Registry}

/-- The mirrors are in agreement, apart from keys that are bare and come back with an event. -/
def ShownBut (ix : Index) (r : Registry) (events : List TagEvent) : Prop :=
  ∀ key, r.get? key = Holdings.shown ix.standard ix.lwc.get? r.own key ∨
    r.get? key = none ∧ ∃ t, .deleted t ∈ events ∧ t.key = key ∧ t.dialect = .aura

/-- A change to the aura registry that spares the mirrors leaves bare keys with an event. -/
theorem ShownBut.applyChange {events : List TagEvent} (h : ShownBut ix r events)
    (haura : r.dialect = .aura) (hordered : Ordered r.tags) {c : TagChange}
    (hc : ∀ t, c = .upsert t → t.dialect = .aura)
    (hspares : ∀ key t, c = .remove key → r.get? key = some t → t.dialect = .aura) :
    ShownBut ix (r.applyChange false c).1 (events ++ (r.applyChange false c).2.toList) := by
  have hget := applyChange_get? false r c hordered
  rw [if_neg (by simp)] at hget
  have hown := own_applyChange hordered (by simpa only [haura] using hc)
  intro key
  by_cases hk : changeKey c = key
  · subst hk
    cases c with
    | upsert t =>
        refine .inl ?_
        rw [hget, hown, changeKey, Holdings.change_upsert_self,
          Holdings.shown_eq_of_some (Holdings.change_upsert_self _ t)]
    | remove gone =>
        cases hold : r.get? gone with
        | none =>
            have hsame : r.applyChange false (.remove gone) = (r, none) := by
              simp [Registry.applyChange, hold]
            rw [hsame, Option.toList_none, List.append_nil]
            exact h gone
        | some old =>
            refine .inr ⟨?_, old, ?_, ?_⟩
            · rw [hget, changeKey, Holdings.change_remove_self]
            · simp [Registry.applyChange, hold]
            · exact ⟨get?_eq_some_key hold, hspares gone old rfl hold⟩
  · rw [hget, hown, Holdings.change_of_ne hk, Holdings.shown, Holdings.change_of_ne hk]
    rcases h key with hshown | ⟨hbare, t, ht, hkey⟩
    · exact .inl hshown
    · exact .inr ⟨hbare, t, List.mem_append_left _ ht, hkey⟩

theorem ShownBut.applyBatch {events : List TagEvent} (h : ShownBut ix r events)
    (haura : r.dialect = .aura) (hordered : Ordered r.tags) {changes : List TagChange}
    (hc : Brings .aura changes) (hspares : r.SparesMirrors changes) :
    ShownBut ix (r.applyBatch false changes).1 (events ++ (r.applyBatch false changes).2) := by
  induction changes generalizing r events with
  | nil => simpa using h
  | cons c rest ih =>
      rw [applyBatch_cons, ← List.append_assoc]
      have hspares' : ∀ key t, c = .remove key → r.get? key = some t → t.dialect = .aura :=
        fun key t hk ht => (hspares.1 key t hk ht).trans haura
      exact ih (h.applyChange haura hordered hc.head hspares')
        (by rw [applyChange_dialect, haura]) (applyChange_ordered false r c hordered)
        hc.tail hspares.2

theorem ShownBut.apply {events : List TagEvent} (h : ShownBut ix r events)
    (haura : r.dialect = .aura) (hordered : Ordered r.tags) {changes : List TagChange}
    (hc : Brings .aura changes) (hspares : r.SparesMirrors changes) :
    ShownBut ix (r.apply false changes).1 (events ++ (r.apply false changes).2) := by
  intro key
  rw [apply_get?, apply_own, apply_events]
  exact h.applyBatch haura hordered hc hspares key

/-- An event counts no longer once its key is as shown. -/
theorem ShownBut.tail {event : TagEvent} {rest : List TagEvent}
    (h : ShownBut ix r (event :: rest))
    (hkey : ∀ t, event = .deleted t → t.dialect = .aura →
      r.get? t.key = Holdings.shown ix.standard ix.lwc.get? r.own t.key) :
    ShownBut ix r rest := by
  intro key
  rcases h key with hshown | ⟨hbare, t, ht, hk, hd⟩
  · exact .inl hshown
  · rcases List.mem_cons.mp ht with hevent | hrest
    · subst hk
      exact .inl (hkey t hevent.symm hd)
    · exact .inr ⟨hbare, t, hrest, hk, hd⟩

/-- A bare key without a web component to mirror is as shown. -/
theorem ShownBut.shown_of_unmirrored {events : List TagEvent} (h : ShownBut ix r events)
    {key : String} (hkey : (ix.lwc.get? key).filter ix.isMirrored = none) :
    r.get? key = Holdings.shown ix.standard ix.lwc.get? r.own key := by
  rcases h key with hshown | ⟨hbare, -⟩
  · exact hshown
  · have hnone : Holdings.mirrored ix.standard ix.lwc.get? key = none :=
      congrArg (Option.map Tag.mirror) hkey
    rw [hbare, Holdings.shown_eq_of_none (own_eq_none_of_get? hbare), hnone]

/-- A mirror that comes back stands under its key, unless an own tag does. -/
theorem ShownBut.restore {events : List TagEvent} (h : ShownBut ix r events)
    (hix : ix.Sound) (haura : r.dialect = .aura) (hordered : Ordered r.tags) {source : Tag}
    (hsource : ix.lwc.get? source.key = some source) (hm : ix.isMirrored source = true) :
    let a := (r.applyChange true (.upsert source.mirror)).1
    ShownBut ix a events ∧
      a.get? source.key = Holdings.shown ix.standard ix.lwc.get? a.own source.key := by
  intro a
  have hforeign : ∀ t, TagChange.upsert source.mirror = .upsert t → t.dialect ≠ r.dialect := by
    rintro t ⟨⟩
    have hlwc := hix.lwc_tags source (mem_of_lookup hsource)
    simp [Tag.mirror, hlwc, haura]
  have hown : a.own = r.own := own_applyChange_guarded hordered hforeign
  have hget : a.get? = _ := applyChange_get? true r (.upsert source.mirror) hordered
  have hat : a.get? source.key = Holdings.shown ix.standard ix.lwc.get? a.own source.key := by
    rw [hown, hget]
    by_cases howns : r.ownsKey source.key = true
    · obtain ⟨t, ht⟩ := ownsKey_iff.mp howns
      rw [if_pos ⟨rfl, howns⟩, Holdings.shown_eq_of_some ht, (own_eq_some.mp ht).1]
    · have hmirror : Holdings.mirrored ix.standard ix.lwc.get? source.key = some source.mirror := by
        have hm' : (source.identity.space != ix.standard) = true := hm
        simp [Holdings.mirrored, hsource, Option.filter_some, hm']
      rw [if_neg (by simpa [changeKey] using howns),
        Holdings.shown_eq_of_none (own_eq_none_of_not_ownsKey howns), hmirror]
      exact Holdings.change_upsert_self _ source.mirror
  refine ⟨fun key => ?_, hat⟩
  by_cases hk : source.key = key
  · exact .inl (hk ▸ hat)
  · have hsame : a.get? key = r.get? key := by
      rw [hget]
      split
      · rfl
      · exact Holdings.change_of_ne hk
    rw [hsame, hown]
    exact h key

/-- The answer to events brings all bare keys back. -/
theorem ShownBut.restored {events : List TagEvent} (h : ShownBut ix r events)
    (hix : ix.Sound) (haura : r.dialect = .aura) (hordered : Ordered r.tags) :
    let a := (r.applyBatch true (events.filterMap ix.restoring)).1
    a.get? = Holdings.shown ix.standard ix.lwc.get? a.own := by
  induction events generalizing r with
  | nil =>
      funext key
      rcases h key with hshown | ⟨-, t, ht, -⟩
      · exact hshown
      · cases ht
  | cons event rest ih =>
      cases hrestore : ix.restoring event with
      | none =>
          rw [List.filterMap_cons_none hrestore]
          refine ih (h.tail ?_) haura hordered
          rintro t rfl hd
          refine h.shown_of_unmirrored ?_
          simpa [restoring, hd] using hrestore
      | some c =>
          obtain ⟨t, source, rfl, hsource, hm, hkey, rfl⟩ := restoring_eq_some hrestore
          obtain ⟨hbut, hat⟩ := h.restore hix haura hordered hsource hm
          rw [List.filterMap_cons_some hrestore, applyBatch_cons]
          refine ih (hbut.tail ?_) (by rw [applyChange_dialect, haura])
            (applyChange_ordered true r _ hordered)
          rintro u ⟨⟩ -
          exact hkey ▸ hat

end Restoring

end Index

end ComponentAtlas
