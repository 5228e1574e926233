import ComponentAtlas.Proofs.Session.FullPass

/-!
# What a pass takes from stored tags

Candidates of different keys are different files, so that what a pass takes for one of them does
not depend on the others: it is the stored tag of the file, if its time, dialect and namespace
are those of the candidate, and otherwise what the file is compiled to.
-/

namespace ComponentAtlas

namespace Snapshot

variable {tags : List Tag}

/-- The tag of a file does not depend on the tags of another one. -/
theorem tagOf?_filter {p q : Path} (h : q.same p = false) :
    tagOf? (tags.filter fun t => !t.file.same p) q = tagOf? tags q := by
  rw [tagOf?, tagOf?, ← List.filter_reverse, List.find?_filter]
  congr 1
  funext t
  cases hq : t.file.same q with
  | false => simp
  | true =>
      rw [Path.same_congr_left (Path.same_iff.mp hq), h]
      rfl

theorem mem_of_tagOf? {p : Path} {tag : Tag} (h : tagOf? tags p = some tag) :
    tag ∈ tags ∧ tag.file.same p = true := by
  unfold tagOf? at h
  have hfile := List.find?_some h
  exact ⟨List.mem_reverse.mp (List.mem_of_find?_eq_some h), hfile⟩

theorem tagOf?_eq_some (h : ∀ t ∈ tags, ∀ u ∈ tags, t.file.same u.file = true → t = u)
    {p : Path} {tag : Tag} :
    tagOf? tags p = some tag ↔ tag ∈ tags ∧ tag.file.same p = true := by
  refine ⟨mem_of_tagOf?, ?_⟩
  rintro ⟨hmem, hfile⟩
  cases hfound : tagOf? tags p with
  | none =>
      rw [tagOf?] at hfound
      have hnone := List.find?_eq_none.mp hfound tag (List.mem_reverse.mpr hmem)
      exact absurd hfile hnone
  | some other =>
      obtain ⟨hother, hsame⟩ := mem_of_tagOf? hfound
      refine congrArg some (h other hother tag hmem ?_)
      rw [Path.same_congr_left (Path.same_iff.mp hsame), Path.same_comm]
      exact hfile

/-- Among different files each may reuse its own tag. -/
theorem reuse_eq_map {files : List (Path × Nat)}
    (h : files.Pairwise fun f g => g.1.same f.1 = false) :
    reuse tags files =
      files.map fun f => (tagOf? tags f.1).filter fun t => t.modifiedAt == f.2 := by
  induction files generalizing tags with
  | nil => rfl
  | cons f rest ih =>
      obtain ⟨hhead, hrest⟩ := List.pairwise_cons.mp h
      rw [reuse, List.map_cons, ih hrest]
      congr 1
      exact List.map_congr_left fun g hg => by rw [tagOf?_filter (hhead g hg)]

end Snapshot

namespace Candidate

variable {t : FileTree} {w : Workspace} {d : Dialect} {r : NamespaceRoots}

/-- The stored tag that a candidate reuses. -/
def reused? (d : Dialect) (stored : List Tag) (c : Candidate) : Option Tag :=
  ((Snapshot.tagOf? stored c.path).filter fun tag => tag.modifiedAt == c.modifiedAt).filter
    (c.accepts d)

/-- The result of a pass for a candidate. -/
def outcome (t : FileTree) (d : Dialect) (stored : List Tag) (c : Candidate) : Bool × Option Tag :=
  match c.reused? d stored with
  | some tag => (true, some tag)
  | none => (false, c.compile? t d)

theorem resolve_eq_map {stored : List Tag} {cs : List Candidate}
    (h : cs.Pairwise fun c c' => c'.path.same c.path = false) :
    resolve t d stored cs = cs.map (outcome t d stored) := by
  have hfiles : (cs.map fun c => (c.path, c.modifiedAt)).Pairwise
      fun f g => g.1.same f.1 = false := List.pairwise_map.mpr h
  let old (c : Candidate) : Option Tag :=
    (Snapshot.tagOf? stored c.path).filter fun tag => tag.modifiedAt == c.modifiedAt
  have hzip : cs.zip (cs.map old) = cs.map fun c => (c, old c) := by
    simpa using List.zip_map' (f := id) (g := old) (l := cs)
  rw [resolve, Snapshot.reuse_eq_map hfiles, List.map_map]
  refine (congrArg (List.map _) hzip).trans ?_
  rw [List.map_map]
  rfl

/-- Candidates of different keys are different files. -/
theorem eq_of_same (ht : t.WellNamed) (hkeys : ((discover t w d r).map key).Nodup)
    {c c' : Candidate} (hc : c ∈ discover t w d r) (hc' : c' ∈ discover t w d r)
    (hsame : c.path.same c'.path = true) : c = c' := by
  obtain ⟨root, -, name, ext, hstands⟩ := stands_of_mem_discover ht hc
  obtain ⟨root', -, name', ext', hstands'⟩ := stands_of_mem_discover ht hc'
  have hpath := Path.same_iff.mp hsame
  refine List.inj_on_of_nodup_map hkeys hc hc' ?_
  rw [key, key, (hstands.eq_of_same hstands' hpath).1, Path.stem?_congr hpath]

theorem files_differ (ht : t.WellNamed) (hkeys : ((discover t w d r).map key).Nodup) :
    (discover t w d r).Pairwise fun c c' => c'.path.same c.path = false := by
  refine (List.pairwise_map.mp hkeys).imp_of_mem fun {c c'} hc hc' hne => ?_
  rw [Bool.eq_false_iff]
  intro hsame
  exact hne (congrArg key (eq_of_same ht hkeys hc' hc hsame).symm)

theorem resolve_discover (ht : t.WellNamed) (hkeys : ((discover t w d r).map key).Nodup)
    (stored : List Tag) :
    resolve t d stored (discover t w d r) = (discover t w d r).map (outcome t d stored) :=
  resolve_eq_map (files_differ ht hkeys)

/-- A result has the tag of its candidate. -/
theorem outcome_tag {stored : List Tag} {c : Candidate} {tag : Tag}
    (h : (c.outcome t d stored).2 = some tag) :
    tag.dialect = d ∧ tag.file.same c.path = true ∧ tag.modifiedAt = c.modifiedAt ∧
      tag.identity.space = c.space := by
  have hresolve : resolve t d stored [c] = [c.outcome t d stored] :=
    resolve_eq_map (List.pairwise_singleton _ _)
  have hres := resolve_forall₂ t d stored [c]
  rw [hresolve] at hres
  obtain ⟨hres, -⟩ := List.forall₂_cons.mp hres
  exact hres.tag h

/-- The namespace of a component is given by its path. -/
theorem Stands.space_congr {t' : FileTree} {w' : Workspace} {root root' : Path}
    {name name' ext ext' : String} {c c' : Candidate} (h : c.Stands t w d root name ext)
    (h' : c'.Stands t' w' d root' name' ext') (hw : w'.settings = w.settings)
    (hsame : c.path.components = c'.path.components) : c.space = c'.space := by
  have hsteps := h.components.symm.trans (hsame.trans h'.components)
  have hroot : root.components = root'.components := (List.append_inj' hsteps rfl).1
  rw [h.space, h'.space, Workspace.namespaceForRoot, Workspace.namespaceForRoot,
    Path.fileName?_congr hroot, hw]

/-- A result of a pass behind another one that found some candidates and left some tags: the tag
of an unchanged candidate if there is one, and else what the file is compiled to. -/
inductive Takes (t : FileTree) (d : Dialect) (before : List Candidate) (left : List Tag)
    (c : Candidate) : Bool × Option Tag → Prop where
  | reused {old : Candidate} {tag : Tag} (hold : old ∈ before)
      (hpath : old.path.same c.path = true) (htime : old.modifiedAt = c.modifiedAt)
      (htag : tag ∈ left) (hfile : tag.file.same old.path = true) :
      Takes t d before left c (true, some tag)
  | compiled (hnone : ∀ old ∈ before, old.path.same c.path = true →
        old.modifiedAt = c.modifiedAt → ∀ tag ∈ left, ¬tag.file.same old.path = true) :
      Takes t d before left c (false, c.compile? t d)

end Candidate

end ComponentAtlas
