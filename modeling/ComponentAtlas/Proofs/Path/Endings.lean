import ComponentAtlas.Proofs.Path.Siblings
import ComponentAtlas.Uri.Basic

/-!
# Ends of file names

A path is absolute when the root is its first component, so the files of one folder are all absolute
or none of them is. An absolute path has a URI, which ends like the name of the file: an extension
is not coded. So files with different extensions have different URIs.
-/

namespace ComponentAtlas

open ComponentAtlas.Text

namespace Path

variable {p q : Path} {ext : String}

theorem isAbsolute_iff_root : p.isAbsolute = true ↔ ∃ rest, p.components = .root :: rest := by
  refine ⟨components_of_isAbsolute, fun ⟨rest, h⟩ => ?_⟩
  rw [components, componentsOf_eq_head] at h
  cases htext : p.text.toList with
  | nil => simp [htext, splitHead, headSteps, splitAt, Step.ofPiece?] at h
  | cons c text =>
      by_cases hc : c = '/'
      · rw [isAbsolute, htext, hc]
        rfl
      · have hnone : ∀ pieces : List (List Char),
            pieces.filterMap Step.ofPiece? ≠ .root :: rest := fun pieces hpieces => by
          have hmem : Step.root ∈ pieces.filterMap Step.ofPiece? := hpieces ▸ List.mem_cons_self
          obtain ⟨piece, -, hpiece⟩ := List.mem_filterMap.mp hmem
          exact ofPiece?_ne_root piece hpiece
        rw [htext] at h
        unfold splitHead at h
        split at h
        · next heq => exact absurd (List.cons.inj heq).1 hc
        · exact absurd (List.cons.inj h).1 (by decide)
        · exact absurd (List.cons.inj h).1 (by decide)
        · exact absurd h (hnone _)

/-- A file name is its stem and its extension, with a dot between them. -/
theorem components_of_stem? {stem : String} (hstem : p.stem? = some stem)
    (h : p.extension? = some ext) :
    ∃ steps, p.components = steps ++ [.name (stem ++ "." ++ ext)] := by
  obtain ⟨name, hname, hending⟩ := Option.bind_eq_some_iff.mp h
  obtain ⟨ending, hsplit, rfl⟩ := Option.map_eq_some_iff.mp hending
  obtain ⟨steps, hsteps⟩ := components_of_fileName? hname
  rw [stem?, hname, Option.map_some, Option.some.injEq] at hstem
  subst hstem
  have hwhole : splitName name.toList = ((splitName name.toList).1, some ending) :=
    Prod.ext rfl hsplit
  have hfile : String.ofList (splitName name.toList).1 ++ "." ++ String.ofList ending = name :=
    String.toList_inj.mp (by simp [← (eq_of_splitName hwhole).1])
  exact ⟨steps, by rw [hsteps, hfile]⟩

theorem components_of_extension? (h : p.extension? = some ext) :
    ∃ steps stem, p.components = steps ++ [.name (stem ++ "." ++ ext)] := by
  obtain ⟨name, hname, -⟩ := Option.bind_eq_some_iff.mp h
  obtain ⟨steps, hsteps⟩ := components_of_stem? (by rw [stem?, hname, Option.map_some]) h
  exact ⟨steps, _, hsteps⟩

/-- A file beside an absolute one is absolute. -/
theorem Beside.isAbsolute {ext' : String} (h : p.Beside q) (hp : p.extension? = some ext)
    (hq : q.extension? = some ext') (habs : q.isAbsolute = true) : p.isAbsolute = true := by
  obtain ⟨steps, name, hsteps⟩ := components_of_extension? hp
  obtain ⟨steps', name', hsteps'⟩ := components_of_extension? hq
  obtain rfl := (beside_iff hsteps hsteps').mp h
  obtain ⟨rest, hroot⟩ := isAbsolute_iff_root.mp habs
  rw [hsteps'] at hroot
  cases steps with
  | nil => exact nomatch (List.cons.inj hroot).1
  | cons step steps =>
      obtain rfl := (List.cons.inj hroot).1
      exact isAbsolute_iff_root.mpr ⟨_, hsteps⟩

end Path

namespace Uri

variable {p q : Path} {ext ext' : String} {c c' : Char}

/-- The characters that stand for themselves in a step of a path. -/
def isBare (c : Char) : Bool :=
  0x20 ≤ c.toNat && c.toNat ≤ 0x7E && !codedInStep c

theorem percentEncode_concat (text : List Char) (hc : isBare c = true) :
    percentEncode codedInStep (text ++ [c]) = percentEncode codedInStep text ++ [c] := by
  simp only [isBare, Bool.and_eq_true, decide_eq_true_eq, Bool.not_eq_true'] at hc
  have hcoded : ¬ (c.toNat < 0x20 ∨ 0x7E < c.toNat ∨ codedInStep c = true) := by
    simp only [hc.2, Bool.false_eq_true, or_false]
    omega
  simp only [percentEncode, List.flatMap_append, List.flatMap_singleton, if_neg hcoded]

theorem isSome_ofPath? : (ofPath? p).isSome = p.isAbsolute := by
  rw [ofPath?]
  cases p.isAbsolute <;> rfl

/-- The URI of a file ends as its extension does. -/
theorem getLast?_of_ofPath? {uri : String} (hext : p.extension? = some ext)
    (hlast : ext.toList.getLast? = some c) (hc : isBare c = true) (huri : ofPath? p = some uri) :
    uri.toList.getLast? = some c := by
  obtain ⟨steps, stem, hsteps⟩ := Path.components_of_extension? hext
  obtain ⟨front, hfront⟩ := List.getLast?_eq_some_iff.mp hlast
  rw [ofPath?] at huri
  split at huri
  · next habs =>
    obtain ⟨rest, hroot⟩ := Path.isAbsolute_iff_root.mp habs
    have hdrop : p.components.drop 1 = steps.drop 1 ++ [.name (stem ++ "." ++ ext)] := by
      rw [hsteps]
      cases steps with
      | nil => exact nomatch (List.cons.inj (hsteps.symm.trans hroot)).1
      | cons => rfl
    have hname : (Step.name (stem ++ "." ++ ext)).text.toList =
        (stem.toList ++ '.' :: front) ++ [c] := by
      simp [Step.text, hfront]
    obtain ⟨coded, hcoded⟩ : ∃ coded, ((p.components.drop 1).flatMap fun step =>
        '/' :: percentEncode codedInStep step.text.toList) = coded ++ [c] := by
      rw [hdrop, List.flatMap_append, List.flatMap_singleton, hname, percentEncode_concat _ hc,
        ← List.cons_append, ← List.append_assoc]
      exact ⟨_, rfl⟩
    simp only [hcoded, List.append_eq_nil_iff, List.cons_ne_nil, and_false, if_false] at huri
    obtain rfl := Option.some.inj huri
    simp only [String.toList_append, String.toList_ofList, ← List.append_assoc,
      List.getLast?_concat]
  · cases huri

/-- Files whose extensions end differently have different URIs. -/
theorem ofPath?_ne (hp : p.extension? = some ext) (hq : q.extension? = some ext')
    (hlast : ext.toList.getLast? = some c) (hlast' : ext'.toList.getLast? = some c')
    (hc : isBare c = true) (hc' : isBare c' = true) (hne : c ≠ c') {uri : String}
    (hfound : ofPath? p = some uri) : ofPath? q ≠ some uri := by
  intro hfound'
  have h := getLast?_of_ofPath? hp hlast hc hfound
  rw [getLast?_of_ofPath? hq hlast' hc' hfound'] at h
  exact hne (Option.some.inj h).symm

end Uri

end ComponentAtlas
