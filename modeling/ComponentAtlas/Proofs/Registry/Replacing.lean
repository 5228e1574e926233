import ComponentAtlas.Proofs.Provider.Listing
import ComponentAtlas.Proofs.Registry.Nesting
import Mathlib.Data.Finset.Dedup

/-!
# Replacements are exact

A replacement removes the own keys that do not come back and then brings its tags. What it leaves
is the last tag of each key together with the foreign tags under other keys, so a second
replacement by the same tags finds nothing to do. In the aura registry of an index every key that
is gone shows the mirror behind it again.
-/

namespace ComponentAtlas

namespace Registry

/-- A replacement in a registry that has no observers, with the number of keys that are gone. -/
def replaceOwned (r : Registry) (tags : List Tag) : Registry × Nat :=
  ((r.apply false (r.replacement tags)).1, (r.staleKeys tags).length)

/-- Without a guard each change of a batch acts on its key. -/
theorem applyBatch_get? {r : Registry} (h : Ordered r.tags) (changes : List TagChange) :
    (r.applyBatch false changes).1.get? = Holdings.changeAll r.get? changes := by
  induction changes generalizing r with
  | nil => rfl
  | cons c rest ih =>
      rw [applyBatch_cons, ih (applyChange_ordered false r c h), applyChange_get? false r c h,
        if_neg (by simp), Holdings.changeAll_cons]

/-- A registry in order is known by what it holds. -/
theorem Kept.eq_of_get? {r s : Registry} (hr : r.Kept) (hs : s.Kept)
    (hdialect : r.dialect = s.dialect) (h : r.get? = s.get?) : r = s := by
  have htags : r.tags = s.tags :=
    hr.ordered.eq_of_lookup hs.ordered fun key => congrFun h key
  have hspaces : r.namespaces = s.namespaces := by
    rw [hr.refreshed, hs.refreshed, htags]
  calc
    r = ⟨r.dialect, r.tags, r.namespaces⟩ := rfl
    _ = ⟨s.dialect, s.tags, s.namespaces⟩ := by rw [hdialect, htags, hspaces]

section Stale

variable {r : Registry} {tags : List Tag} {key : String}

theorem mem_staleKeys (h : Ordered r.tags) :
    key ∈ r.staleKeys tags ↔ (∃ t, r.own key = some t) ∧ key ∉ tags.map Tag.key := by
  rw [staleKeys, List.mem_filter, Bool.not_eq_true', List.contains_eq_mem,
    decide_eq_false_iff_not]
  refine and_congr_left fun _ => ?_
  constructor
  · intro hmem
    obtain ⟨t, ht, rfl⟩ := List.mem_map.mp hmem
    exact ⟨t, (mem_owned_iff h).mp ht⟩
  · rintro ⟨t, ht⟩
    have hkey := own_key ht
    exact List.mem_map.mpr ⟨t, (mem_owned_iff h).mpr (hkey ▸ ht), hkey⟩

theorem nodup_keys_owned (h : Ordered r.tags) : (r.owned.map Tag.key).Nodup :=
  List.pairwise_map.mpr ((ordered_owned h).imp fun hlt => ne_of_lt hlt)

/-- The keys that are gone are the own keys apart from those of the tags. -/
theorem length_staleKeys (h : Ordered r.tags) :
    (r.staleKeys tags).length =
      ((r.owned.map Tag.key).toFinset \ (tags.map Tag.key).toFinset).card := by
  have hnodup : (r.staleKeys tags).Nodup := (nodup_keys_owned h).filter _
  rw [← List.toFinset_card_of_nodup hnodup]
  congr 1
  ext key
  simp [staleKeys]

end Stale

section Replacement

variable {r : Registry} (h : r.Kept)
include h

theorem Kept.replaceOwned (tags : List Tag) : (r.replaceOwned tags).1.Kept :=
  h.apply false _

variable {tags : List Tag}

/-- Behind a replacement a key holds its last tag, or else what it held of the other dialect. -/
theorem Kept.get?_replaceOwned (key : String) :
    (r.replaceOwned tags).1.get? key =
      (tags.reverse.find? fun t => t.key == key).or
        ((r.get? key).filter fun t => t.dialect != r.dialect) := by
  rw [Registry.replaceOwned, apply_get?, applyBatch_get? h.ordered, replacement,
    Holdings.changeAll_append, Holdings.changeAll_upsert, Holdings.changeAll_remove]
  cases hfind : tags.reverse.find? fun t => t.key == key with
  | some t => rw [Option.some_or, Option.some_or]
  | none =>
      have hnew : key ∉ tags.map Tag.key := by
        simpa [List.find?_eq_none] using hfind
      rw [Option.none_or, Option.none_or]
      cases hget : r.get? key with
      | none => simp
      | some t =>
          by_cases hown : t.dialect = r.dialect
          · have hstale : key ∈ r.staleKeys tags :=
              (mem_staleKeys h.ordered).mpr ⟨⟨t, own_eq_some.mpr ⟨hget, hown⟩⟩, hnew⟩
            rw [if_pos hstale, Option.filter_some, if_neg (by simp [hown])]
          · have hkept : key ∉ r.staleKeys tags := by
              intro hstale
              obtain ⟨⟨u, hu⟩, -⟩ := (mem_staleKeys h.ordered).mp hstale
              obtain ⟨hgetu, hd⟩ := own_eq_some.mp hu
              obtain rfl : t = u := Option.some.inj (hget.symm.trans hgetu)
              exact hown hd
            rw [if_neg hkept, Option.filter_some, if_pos (by simpa using hown)]

variable (htags : ∀ t ∈ tags, t.dialect = r.dialect)
include htags

theorem Kept.own_replaceOwned : (r.replaceOwned tags).1.own = Holdings.ofTags tags :=
  (own_apply h.ordered (brings_replacement htags)).trans
    (own_changeAll_replacement h.ordered tags)

/-- Own tags in place of the old ones: the last of each key, in the order of the keys. -/
theorem Kept.owned_replaceOwned :
    (r.replaceOwned tags).1.owned.Perm (firstsBy Tag.key tags.reverse) := by
  have hordered := (h.replaceOwned tags).ordered
  refine (List.perm_ext_iff_of_nodup (nodup_keys_owned hordered).of_map
    (nodup_firstsBy Tag.key tags.reverse).of_map).mpr fun t => ?_
  rw [mem_owned_iff hordered, h.own_replaceOwned htags, Holdings.ofTags_apply]
  constructor
  · intro hlast
    obtain ⟨u, hu, hkey⟩ := exists_mem_firstsBy Tag.key (List.mem_of_find?_eq_some hlast)
    have hfound := find?_of_mem_firstsBy hu
    rw [hkey, hlast] at hfound
    exact Option.some.inj hfound ▸ hu
  · exact find?_of_mem_firstsBy

/-- A second replacement by the same tags finds no stale key and leaves the registry. -/
theorem Kept.replaceOwned_again :
    (r.replaceOwned tags).1.replaceOwned tags = ((r.replaceOwned tags).1, 0) := by
  have hnext := h.replaceOwned tags
  have hdialect : (r.replaceOwned tags).1.dialect = r.dialect := apply_dialect ..
  have hstale : (r.replaceOwned tags).1.staleKeys tags = [] := by
    refine List.eq_nil_iff_forall_not_mem.mpr fun key hkey => ?_
    obtain ⟨⟨t, ht⟩, hnew⟩ := (mem_staleKeys hnext.ordered).mp hkey
    have hmem := (mem_owned_iff hnext.ordered).mpr ((own_key ht).symm ▸ ht)
    have hlast := (h.owned_replaceOwned htags).mem_iff.mp hmem
    have hold : t ∈ tags :=
      List.mem_reverse.mp (List.mem_of_find?_eq_some (find?_of_mem_firstsBy hlast))
    exact hnew (List.mem_map.mpr ⟨t, hold, own_key ht⟩)
  have hsame : ((r.replaceOwned tags).1.replaceOwned tags).1 = (r.replaceOwned tags).1 := by
    refine (hnext.replaceOwned tags).eq_of_get? hnext (apply_dialect ..) ?_
    funext key
    rw [hnext.get?_replaceOwned, h.get?_replaceOwned, hdialect]
    cases tags.reverse.find? fun t => t.key == key with
    | some t => rw [Option.some_or, Option.some_or]
    | none => rw [Option.none_or, Option.none_or, Option.filter_filter]; simp
  exact Prod.ext hsame (by rw [Registry.replaceOwned, hstale]; rfl)

/-- What is there behind a replacement: its last tags, and the foreign ones under other keys. -/
theorem Kept.mem_replaceOwned {t : Tag} :
    t ∈ (r.replaceOwned tags).1.all ↔
      t ∈ firstsBy Tag.key tags.reverse ∨
        t ∈ r.all ∧ t.dialect ≠ r.dialect ∧ t.key ∉ tags.map Tag.key := by
  have hnext := h.replaceOwned tags
  have hlast : t ∈ firstsBy Tag.key tags.reverse ↔
      (tags.reverse.find? fun u => u.key == t.key) = some t := by
    rw [← (h.owned_replaceOwned htags).mem_iff, mem_owned_iff hnext.ordered,
      h.own_replaceOwned htags, Holdings.ofTags_apply]
  have hmem : t ∈ r.all ↔ r.get? t.key = some t := h.ordered.mem_iff_lookup t
  rw [hlast, hmem, show t ∈ (r.replaceOwned tags).1.all ↔ _ from hnext.ordered.mem_iff_lookup t,
    ← get?_eq_lookup, h.get?_replaceOwned]
  cases hfind : tags.reverse.find? fun u => u.key == t.key with
  | some u =>
      have hkey : u.key = t.key := by simpa using List.find?_some hfind
      have hu : t.key ∈ tags.map Tag.key :=
        List.mem_map.mpr ⟨u, by simpa using List.mem_of_find?_eq_some hfind, hkey⟩
      simp [hu]
  | none =>
      have hnew : t.key ∉ tags.map Tag.key := by
        simpa [List.find?_eq_none] using hfind
      rw [Option.none_or, Option.filter_eq_some_iff]
      simp [hnew]

end Replacement

section Removed

variable {r : Registry}

/-- Each own tag whose key a batch removes first is reported as deleted. -/
theorem deleted_mem_remove (h : Ordered r.tags) {keys : List String} (rest : List TagChange)
    {t : Tag} (hkey : t.key ∈ keys) (ht : r.get? t.key = some t) :
    .deleted t ∈ (r.applyBatch false (keys.map .remove ++ rest)).2 := by
  induction keys generalizing r with
  | nil => cases hkey
  | cons gone keys ih =>
      rw [List.map_cons, List.cons_append, applyBatch_cons]
      by_cases hgone : gone = t.key
      · subst hgone
        refine List.mem_append_left _ ?_
        simp [applyChange, ht]
      · refine List.mem_append_right _ (ih (applyChange_ordered false r _ h) ?_ ?_)
        · exact (List.mem_cons.mp hkey).resolve_left (Ne.symm hgone)
        · rw [applyChange_get? false r _ h, if_neg (by simp),
            Holdings.change_of_ne (by exact hgone), ht]

/-- A tag that alone is brought to its key, where it or nothing stands, stands there in the end,
guarded or not. -/
theorem applyBatch_get?_of_only {guarded : Bool} (h : Ordered r.tags) {changes : List TagChange}
    {t : Tag} (honly : ∀ c ∈ changes, changeKey c = t.key → c = .upsert t)
    (hstart : r.get? t.key = some t ∨ r.get? t.key = none ∧ .upsert t ∈ changes) :
    (r.applyBatch guarded changes).1.get? t.key = some t := by
  induction changes generalizing r with
  | nil => exact hstart.resolve_right fun hnone => nomatch hnone.2
  | cons c rest ih =>
      have hget := applyChange_get? guarded r c h
      rw [applyBatch_cons]
      refine ih (applyChange_ordered guarded r c h)
        (fun c' hc' => honly c' (List.mem_cons_of_mem _ hc')) ?_
      rw [hget]
      by_cases hkey : changeKey c = t.key
      · obtain rfl := honly c List.mem_cons_self hkey
        refine .inl ?_
        split
        · next hstop =>
            obtain ⟨u, hu⟩ := ownsKey_iff.mp hstop.2
            have hheld : r.get? t.key = some u := (own_eq_some.mp hu).1
            exact hstart.resolve_right fun hnone => nomatch hheld.symm.trans hnone.1
        · exact Holdings.change_upsert_self _ t
      · have hsame : (if guarded = true ∧ r.ownsKey (changeKey c) = true then r.get?
            else Holdings.change r.get? c) t.key = r.get? t.key := by
          split
          · rfl
          · exact Holdings.change_of_ne hkey
        rw [hsame]
        refine hstart.imp_right fun hnone => ⟨hnone.1, ?_⟩
        refine (List.mem_cons.mp hnone.2).resolve_left ?_
        rintro rfl
        exact hkey rfl

end Removed

end Registry

namespace Index

open Registry

/-- A key that a replacement in the aura registry prunes shows the mirror behind it again. -/
theorem replaceOwned_mirrors {ix : Index} (haura : ix.aura.dialect = .aura) (h : ix.aura.Kept)
    {tags : List Tag} {source : Tag} (hkey : source.key ∈ ix.aura.staleKeys tags)
    (hsource : ix.lwc.get? source.key = some source) (hm : ix.isMirrored source = true) :
    (ix.replaceOwned .aura tags).1.aura.get? source.key = some source.mirror := by
  obtain ⟨⟨old, hold⟩, hnew⟩ := (mem_staleKeys h.ordered).mp hkey
  obtain ⟨hheld, hown⟩ := own_eq_some.mp hold
  have hsame : old.key = source.key := own_key hold
  have hgone : (ix.aura.replaceOwned tags).1.get? source.key = none := by
    have hfind : (tags.reverse.find? fun t => t.key == source.key) = none := by
      simpa [List.find?_eq_none] using hnew
    rw [h.get?_replaceOwned, hfind, hheld, Option.none_or, Option.filter_some,
      if_neg (by simp [hown])]
  have hdeleted : .deleted old ∈ (ix.aura.apply false (ix.aura.replacement tags)).2 := by
    rw [apply_events]
    exact deleted_mem_remove h.ordered _ (hsame ▸ hkey) (hsame ▸ hheld)
  have hback : ix.restoring (.deleted old) = some (.upsert source.mirror) := by
    have hdialect : old.dialect = .aura := hown.trans haura
    simp [restoring, hdialect, hsame, hsource, hm]
  have hcommit : (ix.replaceOwned .aura tags).1 =
      (ix.commit .aura (ix.aura.replacement tags)).1 := rfl
  rw [hcommit, commit_aura haura, apply_get?]
  refine applyBatch_get?_of_only (t := source.mirror) (h.replaceOwned tags).ordered
    (fun c hc hat => ?_) (.inr ⟨hgone, List.mem_filterMap.mpr ⟨_, hdeleted, hback⟩⟩)
  obtain ⟨event, -, hrestore⟩ := List.mem_filterMap.mp hc
  obtain ⟨t, other, -, hother, -, -, rfl⟩ := restoring_eq_some hrestore
  have hkeys : other.key = source.key := hat
  obtain rfl : other = source := Option.some.inj (hother.symm.trans (hkeys ▸ hsource))
  rfl

end Index

/-- In a registry that requests can make, tags of its dialect replace the old ones exactly: its own
tags are the last of each key, in the order of the keys; besides there are the foreign tags under
other keys as before, and nothing else; and the own keys that do not come back are counted. A
second replacement by the same tags counts nothing and changes nothing. In an index with this aura
registry the count is the same, and each own key that does not come back holds the mirror of the
web component under it, unless that has the standard namespace. -/
theorem Registry.Reached.replaces {r : Registry} (h : r.Reached) (tags : List Tag)
    (htags : ∀ t ∈ tags, t.dialect = r.dialect) :
    let next := (r.replaceOwned tags).1
    let count := (r.replaceOwned tags).2
    next.owned.Pairwise (fun t u => t.key < u.key) ∧
      next.owned.Perm (firstsBy Tag.key tags.reverse) ∧
      next.all.Pairwise (fun t u => t.key < u.key) ∧
      (∀ t, t ∈ next.all ↔ t ∈ next.owned ∨
        t ∈ r.all ∧ t.dialect ≠ r.dialect ∧ t.key ∉ tags.map Tag.key) ∧
      count = ((r.owned.map Tag.key).toFinset \ (tags.map Tag.key).toFinset).card ∧
      next.replaceOwned tags = (next, 0) ∧
      ∀ ix : Index, ix.Reached → ix.aura = r →
        (ix.replaceOwned .aura tags).2.1 = count ∧
          ∀ old ∈ r.owned, old.key ∉ tags.map Tag.key → ∀ source,
            ix.lwc.get? old.key = some source → source.identity.space ≠ ix.standard →
              (ix.replaceOwned .aura tags).1.aura.get? old.key = some source.mirror := by
  intro next count
  have hkept := h.kept
  have hnext : next.Kept := hkept.replaceOwned tags
  have howned := hkept.owned_replaceOwned htags
  refine ⟨ordered_owned hnext.ordered, howned, hnext.ordered, fun t => ?_,
    length_staleKeys hkept.ordered, hkept.replaceOwned_again htags, ?_⟩
  · rw [howned.mem_iff]
    exact hkept.mem_replaceOwned htags
  · rintro ix hix rfl
    refine ⟨rfl, fun old hold hnew source hsource hspace => ?_⟩
    have hkey : source.key = old.key := get?_eq_some_key hsource
    have hstale : old.key ∈ ix.aura.staleKeys tags :=
      (mem_staleKeys hkept.ordered).mpr
        ⟨⟨old, (mem_owned_iff hkept.ordered).mp hold⟩, hnew⟩
    have hm : ix.isMirrored source = true := by
      simpa [Index.isMirrored] using hspace
    rw [← hkey] at hstale hsource ⊢
    exact Index.replaceOwned_mirrors (hix.dialect .aura) hkept hstale hsource hm

/-- Tags with a repeated key, which a mirror holds, in place of two own tags: one of those had
hidden a mirror, which is there again. -/
theorem Registry.Reached.replaces_covered :
    let card : Tag :=
      ⟨⟨"shop", "card", .hyphen⟩, .lwc, ⟨"/shop/card/card.js"⟩, 1, none, none, [], []⟩
    let list : Tag :=
      ⟨⟨"shop", "list", .hyphen⟩, .lwc, ⟨"/shop/list/list.js"⟩, 2, none, none, [], []⟩
    let cover : Tag :=
      ⟨⟨"shop", "card", .colon⟩, .aura, ⟨"/shop/card/card.cmp"⟩, 3, none, none, [], []⟩
    let gone : Tag :=
      ⟨⟨"shop", "gone", .colon⟩, .aura, ⟨"/shop/gone/gone.cmp"⟩, 4, none, none, [], []⟩
    let first : Tag :=
      ⟨⟨"shop", "list", .colon⟩, .aura, ⟨"/shop/list/list.cmp"⟩, 5, none, none, [], []⟩
    let last : Tag := { first with modifiedAt := 6 }
    let ix := (Index.empty "c").serveAll
      [(.lwc, .commit [.upsert card, .upsert list]), (.aura, .replaceOwned [cover, gone])]
    let tags := [first, last]
    let next := (ix.aura.replaceOwned tags).1
    ix.Reached ∧ ix.aura.all = [cover, gone, list.mirror] ∧
      (∀ t ∈ tags, t.dialect = ix.aura.dialect) ∧
      next.owned.Perm [last] ∧ next.replaceOwned tags = (next, 0) ∧
      (ix.replaceOwned .aura tags).2.1 = 2 ∧
      (ix.replaceOwned .aura tags).1.aura.get? "shop:card" = some card.mirror := by
  intro card list cover gone first last ix tags next
  have hix : ix.Reached := ⟨"c", _, rfl⟩
  have haura : ∀ {ix : Index}, ix.Reached → ix.aura.Reached := fun h => h.registry .aura
  have htags : ∀ t ∈ tags, t.dialect = ix.aura.dialect := by decide +kernel
  obtain ⟨-, howned, -, -, -, hagain, hindex⟩ := (haura hix).replaces tags htags
  obtain ⟨hcount, hmirrors⟩ := hindex ix hix rfl
  have hlast : firstsBy Tag.key tags.reverse = [last] := by decide +kernel
  have htwo : (ix.aura.replaceOwned tags).2 = 2 := by decide +kernel
  exact ⟨hix, by decide +kernel, htags, hlast ▸ howned, hagain, hcount.trans htwo,
    hmirrors cover (by decide +kernel) (by decide +kernel) card (by decide +kernel) (by decide)⟩

end ComponentAtlas
