import ComponentAtlas.Registry.Basic
import Mathlib.Data.List.Forall2
import Mathlib.Data.String.Basic

/-!
# Tags in the order of keys

Tags that are strictly ordered by their keys are the same as a partial map from keys to tags: a
look-up tells each member, an insertion and a removal change one key, and two ordered lists that
agree at every key are equal.
-/

namespace ComponentAtlas

namespace Registry

/-- The first tag of a key. -/
def lookup (tags : List Tag) (key : String) : Option Tag :=
  tags.find? fun t => t.key == key

/-- Each tag stands before those with greater keys, and no key stands twice. -/
def Ordered (tags : List Tag) : Prop :=
  tags.Pairwise fun t u => t.key < u.key

theorem get?_eq_lookup (r : Registry) (key : String) : r.get? key = lookup r.tags key := rfl

@[simp] theorem lookup_nil (key : String) : lookup [] key = none := rfl

theorem lookup_cons (t : Tag) (rest : List Tag) (key : String) :
    lookup (t :: rest) key = if t.key = key then some t else lookup rest key := by
  by_cases h : t.key = key <;> simp [lookup, h]

theorem mem_of_lookup {tags : List Tag} {key : String} {t : Tag} (h : lookup tags key = some t) :
    t ∈ tags :=
  List.mem_of_find?_eq_some h

theorem lookup_eq_none {tags : List Tag} {key : String} :
    lookup tags key = none ↔ ∀ t ∈ tags, t.key ≠ key := by
  simp [lookup]

theorem Ordered.tail {t : Tag} {rest : List Tag} (h : Ordered (t :: rest)) : Ordered rest :=
  List.Pairwise.of_cons h

theorem Ordered.lt_of_mem {t u : Tag} {rest : List Tag} (h : Ordered (t :: rest))
    (hu : u ∈ rest) : t.key < u.key :=
  List.rel_of_pairwise_cons h hu

/-- In ordered tags every member is found under its key. -/
theorem Ordered.lookup_of_mem {tags : List Tag} (h : Ordered tags) {t : Tag} (ht : t ∈ tags) :
    lookup tags t.key = some t := by
  induction tags with
  | nil => cases ht
  | cons u rest ih =>
      rw [lookup_cons]
      rcases List.mem_cons.mp ht with rfl | hrest
      · simp
      · have hlt := h.lt_of_mem hrest
        rw [if_neg (ne_of_lt hlt)]
        exact ih h.tail hrest

theorem Ordered.mem_iff_lookup {tags : List Tag} (h : Ordered tags) (t : Tag) :
    t ∈ tags ↔ lookup tags t.key = some t :=
  ⟨h.lookup_of_mem, mem_of_lookup⟩

/-- A key below all others is not there. -/
theorem Ordered.lookup_head_eq_none {t : Tag} {rest : List Tag} (h : Ordered (t :: rest))
    {key : String} (hkey : key ≤ t.key) : lookup rest key = none :=
  lookup_eq_none.mpr fun _ hu => ne_of_gt (lt_of_le_of_lt hkey (h.lt_of_mem hu))

/-- Ordered tags that agree at every key up to a relation agree member by member. -/
theorem Ordered.forall₂_of_lookup {R : Tag → Tag → Prop} {tags others : List Tag}
    (ht : Ordered tags) (ho : Ordered others)
    (h : ∀ key, Option.Rel R (lookup tags key) (lookup others key)) :
    List.Forall₂ R tags others := by
  induction tags generalizing others with
  | nil =>
      cases others with
      | nil => exact .nil
      | cons u rest =>
          have hu := h u.key
          rw [lookup_cons, if_pos rfl] at hu
          cases hu
  | cons t rest ih =>
      have hhead := h t.key
      rw [lookup_cons, if_pos rfl] at hhead
      cases others with
      | nil => cases hhead
      | cons u more =>
          -- The least keys agree: each is found on the other side.
          have hkey : t.key = u.key := by
            by_contra hne
            rcases lt_or_gt_of_ne hne with hlt | hgt
            · rw [lookup_cons, if_neg (ne_of_gt hlt), ho.lookup_head_eq_none hlt.le] at hhead
              cases hhead
            · have hu := h u.key
              rw [lookup_cons, if_neg (ne_of_gt hgt), ht.lookup_head_eq_none hgt.le,
                lookup_cons, if_pos rfl] at hu
              cases hu
          rw [lookup_cons, if_pos hkey.symm] at hhead
          cases hhead with
          | some htu =>
              refine .cons htu (ih ht.tail ho.tail fun key => ?_)
              by_cases hk : t.key = key
              · subst hk
                rw [ht.lookup_head_eq_none le_rfl, ho.lookup_head_eq_none hkey.le]
                exact .none
              · have hrest := h key
                rw [lookup_cons, if_neg hk, lookup_cons, if_neg (hkey ▸ hk)] at hrest
                exact hrest

/-- Ordered tags are determined by what is found under each key. -/
theorem Ordered.eq_of_lookup {tags others : List Tag} (ht : Ordered tags) (ho : Ordered others)
    (h : ∀ key, lookup tags key = lookup others key) : tags = others := by
  have hrel : ∀ key, Option.Rel Eq (lookup tags key) (lookup others key) := by
    intro key
    rw [h key]
    cases lookup others key with
    | none => exact .none
    | some t => exact .some rfl
  simpa using ht.forall₂_of_lookup ho hrel

theorem lookup_insertTag (t : Tag) (tags : List Tag) (key : String) :
    lookup (insertTag t tags) key = if t.key = key then some t else lookup tags key := by
  induction tags with
  | nil => simp [insertTag, lookup_cons]
  | cons u rest ih =>
      unfold insertTag
      split
      · next h => by_cases hk : t.key = key <;> simp [lookup_cons, hk, ← h]
      · next h =>
          split
          · rw [lookup_cons]
          · rw [lookup_cons, ih, lookup_cons]
            by_cases hk : t.key = key
            · have hu : u.key ≠ key := fun e => h (hk.trans e.symm)
              simp [hk, hu]
            · simp [hk]

theorem ordered_insertTag {t : Tag} {tags : List Tag} (h : Ordered tags) :
    Ordered (insertTag t tags) := by
  induction tags with
  | nil => exact List.pairwise_singleton _ _
  | cons u rest ih =>
      unfold insertTag
      split
      · next he => exact .cons (fun v hv => he ▸ h.lt_of_mem hv) h.tail
      · next hne =>
          split
          · next hlt =>
              refine .cons (fun v hv => ?_) h
              rcases List.mem_cons.mp hv with rfl | hv
              · exact hlt
              · exact lt_trans hlt (h.lt_of_mem hv)
          · next hnlt =>
              refine .cons (fun v hv => ?_) (ih h.tail)
              rcases mem_insertTag hv with rfl | hv
              · exact lt_of_le_of_ne (not_lt.mp hnlt) fun e => hne e.symm
              · exact h.lt_of_mem hv

theorem eraseKey_sublist (key : String) (tags : List Tag) : (eraseKey key tags).Sublist tags := by
  induction tags with
  | nil => exact .slnil
  | cons u rest ih =>
      unfold eraseKey
      split
      · exact .cons u (List.Sublist.refl rest)
      · exact .cons_cons u ih

theorem ordered_eraseKey {key : String} {tags : List Tag} (h : Ordered tags) :
    Ordered (eraseKey key tags) :=
  List.Pairwise.sublist (eraseKey_sublist key tags) h

theorem lookup_eraseKey {key other : String} {tags : List Tag} (h : Ordered tags) :
    lookup (eraseKey key tags) other = if key = other then none else lookup tags other := by
  induction tags with
  | nil => simp [eraseKey]
  | cons u rest ih =>
      unfold eraseKey
      split
      · next hu =>
          by_cases hk : key = other
          · rw [if_pos hk, ← hk, h.lookup_head_eq_none hu.ge]
          · rw [if_neg hk, lookup_cons, if_neg (hu ▸ hk)]
      · next hu =>
          rw [lookup_cons, lookup_cons, ih h.tail]
          by_cases hk : key = other
          · have hu' : u.key ≠ other := fun e => hu (e.trans hk.symm)
            simp [hk, hu']
          · simp [hk]

end Registry

end ComponentAtlas
