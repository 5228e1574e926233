import ComponentAtlas.Proofs.Path.Folders

/-!
# Files of one folder

Two files stand beside each other when their folders are the same. Where an absolute path ends
another path, both have the same components, since the root comes first in a path and nowhere else.
-/

namespace ComponentAtlas

open ComponentAtlas.Text

/-- A name without a slash that is longer than two dots is plain. -/
theorem PlainName.of_length {name : String} (hslash : '/' ∉ name.toList)
    (hlength : 2 < name.toList.length) : PlainName name := by
  refine ⟨?_, hslash⟩
  have hne : ∀ piece : List Char, piece.length ≤ 2 → name.toList ≠ piece := by
    rintro piece hpiece hname
    rw [hname] at hlength
    omega
  rw [Step.ofPiece?, if_neg (by simp [hne]), if_neg (hne _ (by simp)), String.ofList_toList]

namespace Path

/-- A file that stands in the folder of another one. -/
def Beside (p q : Path) : Prop :=
  ∃ folder other, p.parent? = some folder ∧ q.parent? = some other ∧ folder.same other = true

instance (p q : Path) : Decidable (p.Beside q) :=
  decidable_of_iff
    ((p.parent?.any fun folder => q.parent?.any fun other => folder.same other) = true)
    (by simp only [Option.any_eq_true, Beside]; grind)

section Beside

variable {p q : Path}

theorem beside_iff_same {folder : Path} (hq : q.parent? = some folder) :
    p.Beside q ↔ p.parent?.any folder.same = true := by
  rw [Option.any_eq_true]
  constructor
  · rintro ⟨own, other, hp, hq', hsame⟩
    obtain rfl : folder = other := Option.some.inj (hq.symm.trans hq')
    exact ⟨own, hp, (same_comm folder own).trans hsame⟩
  · rintro ⟨own, hp, hsame⟩
    exact ⟨own, folder, hp, hq, (same_comm own folder).trans hsame⟩

theorem Beside.symm (h : p.Beside q) : q.Beside p := by
  obtain ⟨folder, other, hp, hq, hsame⟩ := h
  exact ⟨other, folder, hq, hp, (same_comm other folder).trans hsame⟩

theorem Beside.trans {r : Path} (h : p.Beside q) (h' : q.Beside r) : p.Beside r := by
  obtain ⟨folder, middle, hp, hq, hsame⟩ := h
  obtain ⟨middle', other, hq', hr, hsame'⟩ := h'
  obtain rfl : middle = middle' := Option.some.inj (hq.symm.trans hq')
  exact ⟨folder, other, hp, hr, same_iff.mpr ((same_iff.mp hsame).trans (same_iff.mp hsame'))⟩

/-- Files stand beside each other when all components but the last are the same. -/
theorem beside_iff {steps steps' : List Step} {name name' : String}
    (hp : p.components = steps ++ [.name name]) (hq : q.components = steps' ++ [.name name']) :
    p.Beside q ↔ steps = steps' := by
  obtain ⟨folder, hfolder, hsteps⟩ := components_parent? hp
  obtain ⟨other, hother, hsteps'⟩ := components_parent? hq
  constructor
  · rintro ⟨folder', other', hfolder', hother', hsame⟩
    obtain rfl : folder = folder' := Option.some.inj (hfolder.symm.trans hfolder')
    obtain rfl : other = other' := Option.some.inj (hother.symm.trans hother')
    rw [← hsteps, ← hsteps', same_iff.mp hsame]
  · rintro rfl
    exact ⟨folder, other, hfolder, hother, same_iff.mpr (hsteps.trans hsteps'.symm)⟩

/-- A component's file stands beside each path that means the same. -/
theorem beside_of_components {extensions : List String} (hp : p.isEntry extensions = true)
    (h : p.components = q.components) : p.Beside q := by
  obtain ⟨steps, name, ext, -, -, hsteps⟩ := isEntry_iff.mp hp
  have hlast : p.components = (steps ++ [.name name]) ++ [.name (name ++ "." ++ ext)] := by
    rw [hsteps]
    simp
  exact (beside_iff hlast (h.symm.trans hlast)).mpr rfl

/-- What stands behind the last slash of a path is its last component. -/
theorem components_of_text {front name : List Char} (h : p.text.toList = front ++ '/' :: name)
    (hslash : '/' ∉ name) (hlength : 2 < name.length) :
    p.components = (⟨String.ofList (front ++ ['/'])⟩ : Path).components ++
      [.name (String.ofList name)] := by
  have hplain : PlainName (String.ofList name) :=
    .of_length (by simpa using hslash) (by simpa using hlength)
  let folder : Path := ⟨String.ofList (front ++ ['/'])⟩
  have htext : (folder.join (String.ofList name)).text.toList = p.text.toList := by
    rw [text_join hplain, h]
    simp [folder]
  have hjoin : folder.join (String.ofList name) = p :=
    congrArg Path.mk (String.toList_inj.mp htext)
  rw [← hjoin, components_join hplain]

/-- Files whose paths differ only behind the dot of their names stand beside each other. -/
theorem beside_of_stem {front name ext ext' : List Char} (hname : '/' ∉ name)
    (hp : p.text.toList = front ++ '/' :: (name ++ '.' :: ext))
    (hq : q.text.toList = front ++ '/' :: (name ++ '.' :: ext'))
    (hext : '/' ∉ ext ∧ 1 < ext.length) (hext' : '/' ∉ ext' ∧ 1 < ext'.length) : p.Beside q := by
  have hplain : ∀ {e : List Char}, '/' ∉ e ∧ 1 < e.length →
      '/' ∉ name ++ '.' :: e ∧ 2 < (name ++ '.' :: e).length := by
    rintro e ⟨hslash, hlength⟩
    refine ⟨by simp [hname, hslash], ?_⟩
    simp only [List.length_append, List.length_cons]
    omega
  exact (beside_iff (components_of_text hp (hplain hext).1 (hplain hext).2)
    (components_of_text hq (hplain hext').1 (hplain hext').2)).mpr rfl

end Beside

section Absolute

variable {p q : Path}

theorem isAbsolute_iff : p.isAbsolute = true ↔ ∃ rest, p.text.toList = '/' :: rest := by
  cases htext : p.text.toList with
  | nil => simp [isAbsolute, htext]
  | cons c rest => simp [isAbsolute, htext]

/-- The root is the first component of an absolute path. -/
theorem components_of_isAbsolute (h : p.isAbsolute = true) :
    ∃ rest, p.components = .root :: rest := by
  obtain ⟨rest, htext⟩ := isAbsolute_iff.mp h
  refine ⟨(splitAt '/' rest).filterMap Step.ofPiece?, ?_⟩
  rw [components, componentsOf_eq_head, htext]
  rfl

/-- No piece between slashes stands for the root. -/
theorem ofPiece?_ne_root (piece : List Char) : Step.ofPiece? piece ≠ some .root := by
  unfold Step.ofPiece?
  split
  · exact nofun
  · split <;> exact nofun

/-- The root is no component but the first one. -/
theorem eq_nil_of_root {front rest : List Step} (h : p.components = front ++ .root :: rest) :
    front = [] := by
  let named := (splitAt '/' (splitHead p.text.toList).2).filterMap Step.ofPiece?
  have hsplit : headSteps (splitHead p.text.toList).1 ++ named = front ++ .root :: rest :=
    (componentsOf_eq_head _).symm.trans h
  have hnamed : Step.root ∉ named := by
    intro hmem
    obtain ⟨piece, -, hpiece⟩ := List.mem_filterMap.mp hmem
    exact ofPiece?_ne_root piece hpiece
  cases front with
  | nil => rfl
  | cons c front =>
      -- At most one component comes from the head, so the root would be among the names.
      refine absurd ?_ hnamed
      have htail : named = front ++ .root :: rest ∨ named = c :: (front ++ .root :: rest) := by
        unfold headSteps at hsplit
        split at hsplit
        · exact .inl (List.cons.inj hsplit).2
        · exact .inl (List.cons.inj hsplit).2
        · exact .inr hsplit
      rcases htail with htail | htail <;> simp [htail]

/-- An absolute path at the end of a path is all of it. -/
theorem components_of_endsWith (h : p.endsWith q = true) (hq : q.isAbsolute = true) :
    p.components = q.components := by
  obtain ⟨rest, hroot⟩ := components_of_isAbsolute hq
  have hsuffix : q.components.reverse <+: p.components.reverse := List.isPrefixOf_iff_prefix.mp h
  obtain ⟨front, hfront⟩ := List.reverse_prefix.mp hsuffix
  rw [hroot] at hfront
  obtain rfl := eq_nil_of_root hfront.symm
  rw [hroot, ← hfront, List.nil_append]

end Absolute

end Path

end ComponentAtlas
