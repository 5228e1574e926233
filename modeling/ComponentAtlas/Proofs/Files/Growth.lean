import ComponentAtlas.Proofs.Files.Reach

/-!
# Trees that grow

Making folders leaves what stands, and puts folders where nothing stood. Writing a text changes
nothing but the place of its file.
-/

namespace ComponentAtlas

open ComponentAtlas.Text

namespace Path

/-- The names on the way to the place of a path stand for themselves. -/
theorem plainName_of_mem_place {p : Path} {name : String} (h : name ∈ p.place) :
    PlainName name := by
  have hfold : ∀ (steps : List Step) (here : Place), (∀ s, .name s ∈ steps → PlainName s) →
      (∀ s ∈ here, PlainName s) → ∀ s ∈ steps.foldl follow here, PlainName s := by
    intro steps
    induction steps with
    | nil => exact fun here _ hhere => hhere
    | cons step rest ih =>
        intro here hsteps hhere
        refine ih _ (fun s hs => hsteps s (List.mem_cons_of_mem _ hs)) fun s hs => ?_
        cases step with
        | root => exact hhere s hs
        | here => exact hhere s hs
        | parent => exact hhere s (List.dropLast_subset _ hs)
        | name last =>
            rcases List.mem_append.mp hs with hold | hnew
            · exact hhere s hold
            · obtain rfl := List.mem_singleton.mp hnew
              exact hsteps s List.mem_cons_self
  exact hfold p.components [] (fun s hs => plainName_of_mem_components hs)
    (fun s hs => nomatch hs) name h

theorem place_join {p : Path} {name : String} (h : PlainName name) :
    (p.join name).place = p.place ++ [name] := by
  have hsteps : (p.join name).components = p.components ++ [name].map .name := components_join h
  exact place_of_components hsteps

end Path

namespace FileTree

/-- A tree that holds what another one does, and folders where that one holds nothing. -/
def Extends (t t' : FileTree) : Prop :=
  ∀ place, t'.get? place = t.get? place ∨
    t.get? place = none ∧ t'.get? place = some .folder

namespace Extends

theorem refl (t : FileTree) : t.Extends t :=
  fun _ => .inl rfl

theorem trans {t t' t'' : FileTree} (h : t.Extends t') (h' : t'.Extends t'') : t.Extends t'' := by
  intro place
  rcases h place with hsame | ⟨hnone, hfolder⟩
  · rw [← hsame]
    exact h' place
  · rcases h' place with hsame | ⟨hnone', -⟩
    · exact .inr ⟨hnone, hsame.trans hfolder⟩
    · rw [hfolder] at hnone'
      cases hnone'

theorem put {t : FileTree} {place : Place} (h : t.get? place = none) :
    t.Extends (t.put place .folder) := by
  intro other
  by_cases hplace : other = place
  · subst hplace
    refine .inr ⟨h, get?_put_self ?_⟩
    rintro rfl
    cases h
  · exact .inl (get?_put_of_ne hplace)

/-- The files of the larger tree are those of the smaller one. -/
theorem file {t t' : FileTree} (h : t.Extends t') {place : Place} {text : Option String}
    {time : Nat} (hfile : t'.get? place = some (.file text time)) :
    t.get? place = some (.file text time) := by
  rcases h place with hsame | ⟨-, hfolder⟩
  · exact hsame.symm.trans hfile
  · rw [hfolder] at hfile
    cases hfile

end Extends

theorem WellNamed.put {t : FileTree} (h : t.WellNamed) {place : Place} {e : Entry}
    (hplace : ∀ name ∈ place, PlainName name) : (t.put place e).WellNamed := by
  intro entry hentry
  rcases List.mem_cons.mp hentry with rfl | hold
  · exact hplace
  · exact h entry (List.mem_filter.mp hold).1

theorem isIdle_iff {piece : String} : isIdle piece = true ↔ piece = "" ∨ piece = "." := by
  simp [isIdle]

section Make

variable {t t' : FileTree}

/-- Making folders only adds folders, under the names of the pieces. -/
theorem makeFolders_eq_ok {here : Place} {pieces : List String}
    (h : t.makeFolders here pieces = .ok t')
    (hhere : ∀ name ∈ here, PlainName name)
    (hpieces : ∀ name, .name name ∈ pieces.filterMap stepOf? → PlainName name) :
    t.Extends t' ∧ (t.WellNamed → t'.WellNamed) := by
  induction pieces generalizing here t with
  | nil =>
      cases h
      exact ⟨.refl _, id⟩
  | cons piece rest ih =>
      rw [makeFolders] at h
      rcases stepOf?_cases piece with ⟨hnone, hidle⟩ | ⟨hup, hidle, hdots⟩ | ⟨hname, hidle, hdots⟩
      · rw [if_pos (isIdle_iff.mpr hidle)] at h
        rw [List.filterMap_cons_none hnone] at hpieces
        exact ih h hhere hpieces
      · rw [if_neg (isIdle_iff.not.mpr hidle), if_pos hdots] at h
        rw [List.filterMap_cons_some hup] at hpieces
        exact ih h (fun name hmem => hhere name (List.dropLast_subset _ hmem))
          fun name hmem => hpieces name (List.mem_cons_of_mem _ hmem)
      · rw [if_neg (isIdle_iff.not.mpr hidle), if_neg hdots] at h
        rw [List.filterMap_cons_some hname] at hpieces
        have hrest : ∀ name, .name name ∈ rest.filterMap stepOf? → PlainName name :=
          fun name hmem => hpieces name (List.mem_cons_of_mem _ hmem)
        have hnext : ∀ name ∈ here ++ [piece], PlainName name := by
          intro name hmem
          rcases List.mem_append.mp hmem with hold | hnew
          · exact hhere name hold
          · obtain rfl := List.mem_singleton.mp hnew
            exact hpieces name List.mem_cons_self
        dsimp only at h
        split at h
        · exact ih h hnext hrest
        · cases h
        · next hmissing =>
            obtain ⟨hextends, hnamed⟩ := ih h hnext hrest
            exact ⟨(Extends.put hmissing).trans hextends, fun ht => hnamed (ht.put hnext)⟩

theorem createFolders_eq_ok {p : Path} (h : t.createFolders p = .ok t') :
    t.Extends t' ∧ (t.WellNamed → t'.WellNamed) := by
  unfold createFolders at h
  split at h
  · cases h
  · next pieces hpieces =>
      refine makeFolders_eq_ok h (fun name hname => nomatch hname) fun name hname => ?_
      refine Path.plainName_of_mem_components (p := p) ?_
      rw [components_of_piecesOf? hpieces]
      exact List.mem_cons_of_mem _ hname

/-- A text is written to the place that its path names. -/
theorem write_eq_ok {p : Path} {text : String} (h : t.write p text = .ok t') :
    t' = t.put p.place (.file (some text) 0) ∧ t.get? p.place ≠ some .folder := by
  unfold write at h
  cases hplace : t.resolve p with
  | error cause =>
      rw [hplace] at h
      cases h
  | ok place =>
      obtain rfl : place = p.place := reach_eq (reach_of_resolve hplace)
      simp only [hplace, bind, Except.bind] at h
      split at h
      · cases h
      · next hne =>
          cases h
          exact ⟨rfl, hne⟩

end Make

end FileTree

end ComponentAtlas
