import ComponentAtlas.Path.Basic
import Mathlib.Data.List.Basic

/-!
# Pieces of a path

The components of a path are read off the pieces between its slashes. A plain name that is joined
to a path is one more component, and the folder of a path has all of its components but the last.
-/

namespace ComponentAtlas

open ComponentAtlas.Text

namespace Text

variable {sep : Char}

theorem splitAt_ne_nil (sep : Char) (text : List Char) : splitAt sep text ≠ [] := by
  cases text with
  | nil => exact List.cons_ne_nil _ _
  | cons c rest =>
      unfold splitAt
      split
      · exact List.cons_ne_nil _ _
      · split <;> exact List.cons_ne_nil _ _

theorem splitAt_cons_of_ne {c : Char} (h : c ≠ sep) {text piece : List Char}
    {pieces : List (List Char)} (hsplit : splitAt sep text = piece :: pieces) :
    splitAt sep (c :: text) = (c :: piece) :: pieces := by
  rw [splitAt, if_neg h, hsplit]

@[simp] theorem splitAt_cons_self (text : List Char) :
    splitAt sep (sep :: text) = [] :: splitAt sep text := by
  rw [splitAt, if_pos rfl]

/-- A separator ends a piece. -/
theorem splitAt_append (front back : List Char) :
    splitAt sep (front ++ sep :: back) = splitAt sep front ++ splitAt sep back := by
  induction front with
  | nil => exact splitAt_cons_self back
  | cons c rest ih =>
      by_cases hc : c = sep
      · subst hc
        rw [List.cons_append, splitAt_cons_self, splitAt_cons_self, ih, List.cons_append]
      · obtain ⟨piece, pieces, hsplit⟩ := List.exists_cons_of_ne_nil (splitAt_ne_nil sep rest)
        rw [hsplit] at ih
        rw [List.cons_append, splitAt_cons_of_ne hc ih, splitAt_cons_of_ne hc hsplit]
        rfl

theorem splitAt_of_not_mem {text : List Char} (h : sep ∉ text) : splitAt sep text = [text] := by
  induction text with
  | nil => rfl
  | cons c rest ih =>
      rw [List.mem_cons, not_or] at h
      exact splitAt_cons_of_ne (Ne.symm h.1) (ih h.2)

theorem not_mem_of_mem_splitAt {text piece : List Char} (h : piece ∈ splitAt sep text) :
    sep ∉ piece := by
  induction text generalizing piece with
  | nil =>
      rw [List.mem_singleton.mp h]
      exact List.not_mem_nil
  | cons c rest ih =>
      by_cases hc : c = sep
      · subst hc
        rw [splitAt_cons_self] at h
        rcases List.mem_cons.mp h with rfl | hrest
        · exact List.not_mem_nil
        · exact ih hrest
      · obtain ⟨first, pieces, hsplit⟩ := List.exists_cons_of_ne_nil (splitAt_ne_nil sep rest)
        rw [splitAt_cons_of_ne hc hsplit] at h
        rw [hsplit] at ih
        rcases List.mem_cons.mp h with rfl | hrest
        · rw [List.mem_cons, not_or]
          exact ⟨Ne.symm hc, ih List.mem_cons_self⟩
        · exact ih (List.mem_cons_of_mem _ hrest)

/-- Only an empty text and a separator in front give an empty first piece. -/
theorem eq_of_splitAt_nil_cons {text : List Char} {pieces : List (List Char)}
    (h : splitAt sep text = [] :: pieces) : text = [] ∨ ∃ rest, text = sep :: rest := by
  cases text with
  | nil => exact .inl rfl
  | cons c rest =>
      by_cases hc : c = sep
      · exact .inr ⟨rest, by rw [hc]⟩
      · obtain ⟨first, more, hsplit⟩ := List.exists_cons_of_ne_nil (splitAt_ne_nil sep rest)
        rw [splitAt_cons_of_ne hc hsplit, List.cons.injEq] at h
        exact absurd h.1 (List.cons_ne_nil _ _)

/-- Pieces that are joined are split again. -/
theorem splitAt_joinWith {pieces : List (List Char)} (hne : pieces ≠ [])
    (h : ∀ piece ∈ pieces, sep ∉ piece) : splitAt sep (joinWith [sep] pieces) = pieces := by
  induction pieces with
  | nil => exact absurd rfl hne
  | cons piece rest ih =>
      have hpiece := splitAt_of_not_mem (h piece List.mem_cons_self)
      cases rest with
      | nil => exact hpiece
      | cons next more =>
          have hrest := ih (List.cons_ne_nil _ _) fun p hp => h p (List.mem_cons_of_mem _ hp)
          rw [joinWith, List.append_assoc, List.singleton_append, splitAt_append, hpiece, hrest,
            List.singleton_append]
          exact List.cons_ne_nil _ _

end Text

/-- A name that stands for itself as a piece of a path. -/
structure PlainName (name : String) : Prop where
  isName : Step.ofPiece? name.toList = some (.name name)
  noSlash : '/' ∉ name.toList

instance (name : String) : Decidable (PlainName name) :=
  decidable_of_iff (Step.ofPiece? name.toList = some (.name name) ∧ '/' ∉ name.toList)
    ⟨fun h => ⟨h.1, h.2⟩, fun h => ⟨h.isName, h.noSlash⟩⟩

namespace Step

/-- A piece that is a name is plain. -/
theorem plainName_of_ofPiece? {piece : List Char} {name : String} (hslash : '/' ∉ piece)
    (h : ofPiece? piece = some (.name name)) : PlainName name := by
  have hname : name.toList = piece := by
    unfold ofPiece? at h
    split at h
    · cases h
    · split at h
      · cases h
      · cases h
        exact String.toList_ofList
  exact ⟨hname ▸ h, hname ▸ hslash⟩

end Step

namespace PlainName

theorem ne_nil {name : String} (h : PlainName name) : name.toList ≠ [] := by
  intro hnil
  have hname := h.isName
  rw [hnil] at hname
  cases hname

end PlainName

namespace Path

/-- The components of some pieces. -/
def ofPieces : List (List Char) → List Step
  | [] => []
  | first :: rest =>
      let named := rest.filterMap Step.ofPiece?
      if first = [] then (if rest = [] then [] else .root :: named)
      else if first = ['.'] then .here :: named
      else match Step.ofPiece? first with
        | some c => c :: named
        | none => named

theorem components_eq_ofPieces (p : Path) : p.components = ofPieces (splitAt '/' p.text.toList) :=
  rfl

/-- One more piece is at most one more component. -/
theorem ofPieces_concat {pieces : List (List Char)} (hne : pieces ≠ []) (hempty : pieces ≠ [[]])
    (piece : List Char) :
    ofPieces (pieces ++ [piece]) = ofPieces pieces ++ (Step.ofPiece? piece).toList := by
  have hlast : [piece].filterMap Step.ofPiece? = (Step.ofPiece? piece).toList := by
    cases h : Step.ofPiece? piece <;> simp [h]
  obtain ⟨first, rest, rfl⟩ := List.exists_cons_of_ne_nil hne
  simp only [List.cons_append, ofPieces, List.filterMap_append, hlast]
  by_cases hfirst : first = []
  · subst hfirst
    have hrest : rest ≠ [] := fun h => hempty (by rw [h])
    simp [hrest]
  · rw [if_neg hfirst, if_neg hfirst]
    split
    · rfl
    · split <;> rfl

theorem ofPieces_plain {name : String} (h : PlainName name) :
    ofPieces [name.toList] = [.name name] := by
  have hdot : name.toList ≠ ['.'] := by
    intro hdot
    have hname := h.isName
    rw [hdot] at hname
    cases hname
  simp [ofPieces, h.ne_nil, hdot, h.isName]

theorem splitAt_eq_singleton_nil {text : List Char} (h : splitAt '/' text = [[]]) :
    text = [] := by
  rcases eq_of_splitAt_nil_cons h with hnil | ⟨rest, rfl⟩
  · exact hnil
  · rw [splitAt_cons_self, List.cons.injEq] at h
    exact absurd h.2 (splitAt_ne_nil _ rest)

/-- How a plain name is joined: behind a slash, which is put there if it is missing. -/
theorem text_join {p : Path} {name : String} (h : PlainName name) :
    (p.join name).text.toList =
      if p.text.toList = [] ∨ p.text.toList.getLast? = some '/' then
        p.text.toList ++ name.toList
      else p.text.toList ++ '/' :: name.toList := by
  have hhead : name.toList.head? ≠ some '/' := by
    intro hhead
    exact h.noSlash (List.mem_of_mem_head? hhead)
  unfold join
  rw [if_neg hhead]
  by_cases hend : p.text.toList = [] ∨ p.text.toList.getLast? = some '/'
  · rw [if_pos hend, if_pos (by simpa [String.isEmpty_iff] using hend)]
    simp
  · rw [if_neg hend, if_neg (by simpa [String.isEmpty_iff] using hend)]
    simp

/-- A plain name is one more component. -/
theorem components_join {p : Path} {name : String} (h : PlainName name) :
    (p.join name).components = p.components ++ [.name name] := by
  have hlast : (Step.ofPiece? name.toList).toList = [.name name] := by
    rw [h.isName]
    rfl
  rw [components_eq_ofPieces, components_eq_ofPieces, text_join h]
  by_cases hempty : p.text.toList = []
  · rw [if_pos (.inl hempty), hempty, List.nil_append, splitAt_of_not_mem h.noSlash,
      ofPieces_plain h]
    rfl
  by_cases hslash : p.text.toList.getLast? = some '/'
  · obtain ⟨front, hfront⟩ := List.getLast?_eq_some_iff.mp hslash
    rw [if_pos (.inr hslash), hfront, List.append_assoc, List.singleton_append, splitAt_append,
      splitAt_append, splitAt_of_not_mem h.noSlash]
    by_cases hroot : splitAt '/' front = [[]]
    · have hjoined : ofPieces [[], name.toList] = [.root, .name name] := by
        simp [ofPieces, h.isName]
      rw [hroot]
      exact hjoined
    · rw [ofPieces_concat (splitAt_ne_nil _ _) hroot, hlast]
      have hnil : splitAt '/' ([] : List Char) = [[]] := rfl
      rw [hnil, ofPieces_concat (splitAt_ne_nil _ _) hroot]
      simp [Step.ofPiece?]
  · rw [if_neg (by simp [hempty, hslash]), splitAt_append, splitAt_of_not_mem h.noSlash,
      ofPieces_concat (splitAt_ne_nil _ _) fun hnil => hempty (splitAt_eq_singleton_nil hnil),
      hlast]

/-- The names among the components of a path are plain. -/
theorem plainName_of_mem_components {p : Path} {name : String} (h : .name name ∈ p.components) :
    PlainName name := by
  have hpiece : ∃ piece ∈ splitAt '/' p.text.toList, Step.ofPiece? piece = some (.name name) := by
    rw [components_eq_ofPieces] at h
    generalize splitAt '/' p.text.toList = pieces at h
    cases pieces with
    | nil => cases h
    | cons first rest =>
        have hrest : Step.name name ∈ rest.filterMap Step.ofPiece? →
            ∃ piece ∈ first :: rest, Step.ofPiece? piece = some (.name name) := by
          intro hmem
          obtain ⟨piece, hpiece, hname⟩ := List.mem_filterMap.mp hmem
          exact ⟨piece, List.mem_cons_of_mem _ hpiece, hname⟩
        simp only [ofPieces] at h
        split at h
        · split at h
          · cases h
          · exact hrest (by simpa only [List.mem_cons, reduceCtorEq, false_or] using h)
        · split at h
          · exact hrest (by simpa only [List.mem_cons, reduceCtorEq, false_or] using h)
          · split at h
            · next c hc =>
                rcases List.mem_cons.mp h with rfl | hmem
                · exact ⟨first, List.mem_cons_self, hc⟩
                · exact hrest hmem
            · exact hrest h
  obtain ⟨piece, hmem, hname⟩ := hpiece
  exact Step.plainName_of_ofPiece? (not_mem_of_mem_splitAt hmem) hname

end Path

end ComponentAtlas
