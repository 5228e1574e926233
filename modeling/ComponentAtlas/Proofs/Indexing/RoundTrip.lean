import ComponentAtlas.Proofs.Indexing.Sources
import ComponentAtlas.Proofs.Registry.Order
import ComponentAtlas.Proofs.Tag.RoundTrip

/-!
# Snapshots that are found again

Different keys fix the order in which a snapshot lists its tags, whatever the order of the tags was
before. A snapshot that was saved is loaded again, with the same tags in that order.
-/

namespace ComponentAtlas

namespace Registry

theorem Ordered.nodup {tags : List Tag} (h : Ordered tags) : (tags.map Tag.key).Nodup := by
  rw [List.Nodup, List.pairwise_map]
  exact h.imp ne_of_lt

/-- Different keys fix the order of tags. -/
theorem Ordered.eq_of_perm {tags others : List Tag} (h : Ordered tags) (ho : Ordered others)
    (hperm : tags.Perm others) : tags = others :=
  hperm.eq_of_pairwise (fun _ _ _ _ hlt hgt => absurd hgt (lt_asymm hlt)) h ho

end Registry

namespace FileTree

/-- A text that was written stands in its file. -/
theorem entry?_of_write {t t' : FileTree} {p : Path} {text : String}
    (h : t.write p text = .ok t') : t'.entry? p = .ok (.file (some text) 0) := by
  obtain ⟨rfl, hfolder⟩ := write_eq_ok h
  have hplace : t.resolve p = .ok p.place := by
    cases hresolve : t.resolve p with
    | error cause =>
        rw [write, hresolve] at h
        cases h
    | ok place => rw [reach_eq (reach_of_resolve hresolve), Path.place]
  have hne : p.place ≠ [] := by
    intro hroot
    exact hfolder (by rw [hroot, get?_root])
  exact entry?_eq_ok.mpr ⟨(sameFolders_put hfolder).resolve.mpr hplace, get?_put_self hne⟩

end FileTree

namespace Snapshot

open Registry

/-- Tags as a snapshot lists them. -/
def sorted (tags : List Tag) : List Tag :=
  tags.mergeSort fun a b => a.key ≤ b.key

theorem sorted_perm (tags : List Tag) : (sorted tags).Perm tags :=
  List.mergeSort_perm tags _

theorem ordered_sorted {tags : List Tag} (h : (tags.map Tag.key).Nodup) :
    Ordered (sorted tags) := by
  have hsorted : (sorted tags).Pairwise fun a b => decide (a.key ≤ b.key) = true :=
    List.pairwise_mergeSort
      (fun a b c hab hbc => by
        rw [decide_eq_true_iff] at hab hbc ⊢
        exact hab.trans hbc)
      (fun a b => by simpa using le_total a.key b.key) tags
  have hdifferent : (sorted tags).Pairwise fun a b => a.key ≠ b.key :=
    List.pairwise_map.mp (((sorted_perm tags).map Tag.key).nodup_iff.mpr h)
  refine (hsorted.and hdifferent).imp fun hab => ?_
  exact lt_of_le_of_ne (of_decide_eq_true hab.1) hab.2

theorem sorted_of_ordered {tags : List Tag} (h : Ordered tags) : sorted tags = tags :=
  (ordered_sorted h.nodup).eq_of_perm h (sorted_perm tags)

theorem write_of_perm {tags others : List Tag} (h : (tags.map Tag.key).Nodup)
    (hperm : others.Perm tags) : write others = write tags := by
  have hothers : (others.map Tag.key).Nodup := (hperm.map Tag.key).nodup_iff.mpr h
  have hsame : (sorted others).Perm (sorted tags) :=
    (sorted_perm others).trans (hperm.trans (sorted_perm tags).symm)
  exact congrArg Stored.writeTags ((ordered_sorted hothers).eq_of_perm (ordered_sorted h) hsame)

section Save

variable {t t' : FileTree} {folder : Path} {d : Dialect} {tags : List Tag}

/-- A snapshot that was saved stands in its file. -/
theorem entry?_of_save (h : save t folder d tags = .ok t') :
    t'.entry? (file folder d) = .ok (.file (some (write tags)) 0) := by
  obtain ⟨middle, -, hwrite⟩ := save_steps h
  exact FileTree.entry?_of_write hwrite

/-- The file of a snapshot is loaded as the tags that are read from its text. -/
theorem load_of_entry? {text : String} {time : Nat} {stored : List Tag}
    (hentry : t.entry? (file folder d) = .ok (.file (some text) time))
    (hread : Stored.readTags? text = some stored) : load t folder d = .ok stored := by
  have hholds : t.holds (file folder d) = true := by
    rw [FileTree.holds, hentry]
    rfl
  have htext : t.read (file folder d) = .ok text := by
    rw [FileTree.read, hentry]
    rfl
  rw [load, if_pos hholds, htext]
  dsimp only
  rw [hread]

theorem readTags?_write (htags : ∀ tag ∈ tags, tag.Fits) :
    Stored.readTags? (write tags) = some (sorted tags) :=
  Stored.readTags?_of_fits fun tag htag => htags tag ((sorted_perm tags).mem_iff.mp htag)

/-- Tags with different keys are loaded from the file in which they were saved, in the order of
their keys; and that file does not depend on the order in which they were given. -/
theorem load_save (hkeys : (tags.map Tag.key).Nodup) (htags : ∀ tag ∈ tags, tag.Fits)
    (hsave : save t folder d tags = .ok t') :
    (∃ stored, load t' folder d = .ok stored ∧ stored.Perm tags ∧
        stored.Pairwise fun a b => a.key < b.key) ∧
      t'.read (file folder d) = .ok (write tags) ∧
      ∀ others : List Tag, others.Perm tags → write others = write tags := by
  have hentry := entry?_of_save hsave
  refine ⟨⟨sorted tags, ?_, sorted_perm tags, ordered_sorted hkeys⟩, ?_, ?_⟩
  · exact load_of_entry? hentry (readTags?_write htags)
  · rw [FileTree.read, hentry]
    rfl
  · intro others hperm
    exact write_of_perm hkeys hperm

end Save

namespace Sample

/-- A tag whose texts need escapes and whose optional values are given. -/
def filled : Tag where
  identity := ⟨"c", "b\"\\\u0001é😀", .hyphen⟩
  dialect := .lwc
  file := ⟨"/w/lwc/ü/ü.js"⟩
  modifiedAt := 18446744073709551615
  documentation := some "line\n\ttab"
  declaration := some ⟨0, 4294967295, 1, 0⟩
  attributes := [⟨"some-name", "someName", none, .property, .api, some "", some ⟨1, 2, 3, 4⟩⟩]
  members := [⟨"someName", .property, .api, none, some "", none⟩,
    ⟨"", .method, .plain, some "", none, some ⟨5, 6, 7, 8⟩⟩]

/-- A tag without any optional value. -/
def bare : Tag where
  identity := ⟨"c", "a", .colon⟩
  dialect := .aura
  file := ⟨"/w/aura/a/a.cmp"⟩
  modifiedAt := 0
  documentation := none
  declaration := none
  attributes := []
  members := []

theorem fits_filled : filled.Fits where
  modifiedAt := by decide
  declaration := by
    rintro s ⟨⟩
    exact ⟨by decide, by decide, by decide, by decide⟩
  attributes := by
    intro a ha
    obtain rfl := List.mem_singleton.mp ha
    rintro s ⟨⟩
    exact ⟨by decide, by decide, by decide, by decide⟩
  members := by
    intro m hm
    rcases List.mem_cons.mp hm with rfl | hm
    · exact nofun
    · obtain rfl := List.mem_singleton.mp hm
      rintro s ⟨⟩
      exact ⟨by decide, by decide, by decide, by decide⟩

theorem fits_bare : bare.Fits :=
  ⟨by decide, nofun, nofun, nofun⟩

end Sample

/-- Two tags are saved in an empty tree and loaded in the other order. -/
theorem load_save_sample :
    ∃ t', save .empty ⟨"/w/.sfdx"⟩ .lwc [Sample.filled, Sample.bare] = .ok t' ∧
    load t' ⟨"/w/.sfdx"⟩ .lwc = .ok [Sample.bare, Sample.filled] ∧
      t'.read (file ⟨"/w/.sfdx"⟩ .lwc) = .ok (write [Sample.bare, Sample.filled]) := by
  have hkeys : ([Sample.filled, Sample.bare].map Tag.key).Nodup := by decide
  have htags : ∀ tag ∈ [Sample.filled, Sample.bare], tag.Fits :=
    List.forall_mem_cons.mpr ⟨Sample.fits_filled, List.forall_mem_singleton.mpr Sample.fits_bare⟩
  cases hsave : save .empty ⟨"/w/.sfdx"⟩ .lwc [Sample.filled, Sample.bare] with
  | error cause =>
      have hok : (save .empty ⟨"/w/.sfdx"⟩ .lwc [Sample.filled, Sample.bare]).isOk = true := by
        decide +kernel
      rw [hsave] at hok
      cases hok
  | ok t' =>
      obtain ⟨⟨stored, hload, hperm, hordered⟩, hread, hothers⟩ := load_save hkeys htags hsave
      have hbare : Ordered [Sample.bare, Sample.filled] := by
        unfold Ordered
        decide
      have hstored := Ordered.eq_of_perm hordered hbare (hperm.trans (.swap _ _ _))
      refine ⟨t', rfl, by rw [hload, hstored], ?_⟩
      rw [hread, hothers [Sample.bare, Sample.filled] (.swap _ _ _)]

end Snapshot

end ComponentAtlas
