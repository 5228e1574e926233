import ComponentAtlas.Proofs.Files.Reach
import Mathlib.Data.List.Nodup
import Mathlib.Data.String.Basic

/-!
# Trees with one entry at each place

A tree holds at most one entry at each place, and stays so whatever is put into it or taken out.
The names in a folder then stand strictly in their order.
-/

namespace ComponentAtlas

namespace FileTree

variable {t : FileTree}

/-- No two entries stand at one place. -/
def Distinct (t : FileTree) : Prop :=
  (t.entries.map Prod.fst).Nodup

instance (t : FileTree) : Decidable t.Distinct :=
  inferInstanceAs (Decidable (t.entries.map Prod.fst).Nodup)

namespace Distinct

theorem empty : FileTree.empty.Distinct :=
  List.nodup_nil

theorem filter (h : t.Distinct) (keep : Place × Entry → Bool) :
    Distinct ⟨t.entries.filter keep⟩ :=
  h.sublist (List.filter_sublist.map _)

theorem put (h : t.Distinct) (place : Place) (e : Entry) : (t.put place e).Distinct := by
  refine List.nodup_cons.mpr ⟨fun hmem => ?_, h.filter _⟩
  obtain ⟨old, hold, hplace⟩ := List.mem_map.mp hmem
  have hne := (List.mem_filter.mp hold).2
  rw [hplace] at hne
  exact absurd hne (by simp)

theorem erase (h : t.Distinct) (place : Place) : (t.erase place).Distinct :=
  h.filter _

theorem plantAt (h : t.Distinct) (here : Place) (names : List String) (e : Entry) :
    (t.plantAt here names e).Distinct := by
  induction names generalizing t here with
  | nil =>
      rw [FileTree.plantAt]
      split
      · exact h
      · exact (h.erase here).put here e
  | cons name rest ih =>
      rw [FileTree.plantAt]
      split
      · exact ih h _
      · exact ih (h.put here .folder) _

theorem plant (h : t.Distinct) (p : Path) (e : Entry) : (t.plant p e).Distinct := by
  rw [FileTree.plant]
  split
  · exact h
  · exact h.plantAt [] _ e

/-- Each name in a folder comes before those behind it. -/
theorem namesAt (h : t.Distinct) (folder : Place) :
    (t.namesAt folder).Pairwise fun a b => a < b := by
  have hnames : (t.entries.filterMap fun e => nameIn? folder e.1).Nodup := by
    have hplaces : ((t.entries.map Prod.fst).filterMap (nameIn? folder)).Nodup := by
      refine h.filterMap fun place other name hname hother => ?_
      exact (nameIn?_eq_some.mp hname).trans (nameIn?_eq_some.mp hother).symm
    rwa [List.filterMap_map] at hplaces
  have hsorted : (t.namesAt folder).Pairwise fun a b => a ≤ b := by
    refine (List.pairwise_mergeSort (fun a b c hab hbc => ?_) (fun a b => ?_) _).imp
      of_decide_eq_true
    · exact decide_eq_true (le_trans (of_decide_eq_true hab) (of_decide_eq_true hbc))
    · simpa using le_total a b
  have hnodup : (t.namesAt folder).Nodup :=
    (List.mergeSort_perm _ _).nodup_iff.mpr hnames
  exact (hsorted.and hnodup).imp fun ⟨hle, hne⟩ => lt_of_le_of_ne hle hne

end Distinct

end FileTree

end ComponentAtlas
