import ComponentAtlas.Proofs.Files.Laying

/-!
# Places on the way of a path

The folders that are made for a path lie on its way, whatever stands there. So a path that leads
through no other folder leaves that folder alone, with all that is in it and all that is missing
there.
-/

namespace ComponentAtlas

namespace Path

/-- The places to which some steps lead one after the other, from a place on. -/
def wayFrom (here : Place) : List Step → List Place
  | [] => [here]
  | step :: rest => here :: wayFrom (follow here step) rest

/-- The places through which a path leads, from the root to its own one. -/
def way (p : Path) : List Place :=
  wayFrom [] p.components

/-- Two paths none of which leads into the place of the other. -/
def Aside (p q : Path) : Prop :=
  (∀ place ∈ q.way, ¬p.place <+: place) ∧ ∀ place ∈ p.way, ¬q.place <+: place

instance (p q : Path) : Decidable (p.Aside q) :=
  inferInstanceAs (Decidable ((∀ place ∈ q.way, ¬p.place <+: place) ∧ _))

section Way

variable {p q : Path} {here : Place}

theorem mem_wayFrom_self (here : Place) (steps : List Step) : here ∈ wayFrom here steps := by
  cases steps <;> exact List.mem_cons_self

theorem foldl_follow_mem_wayFrom (here : Place) (steps : List Step) :
    steps.foldl follow here ∈ wayFrom here steps := by
  induction steps generalizing here with
  | nil => exact List.mem_cons_self
  | cons step rest ih => exact List.mem_cons_of_mem _ (ih _)

theorem place_mem_way (p : Path) : p.place ∈ p.way :=
  foldl_follow_mem_wayFrom [] p.components

theorem prefix_of_mem_wayFrom_names {names : List String} {place : Place}
    (h : place ∈ wayFrom here (names.map .name)) : place <+: here ++ names := by
  induction names generalizing here with
  | nil =>
      obtain rfl := List.mem_singleton.mp h
      exact List.prefix_append _ _
  | cons name names ih =>
      rcases List.mem_cons.mp h with rfl | h
      · exact List.prefix_append _ _
      · simpa [follow] using ih h

/-- The places on the way of a path without a step upwards lie around its own one. -/
theorem Straight.prefix_of_mem_way (h : p.Straight) {place : Place} (hplace : place ∈ p.way) :
    place <+: p.place := by
  obtain ⟨names, hnames⟩ := h
  have hown : p.place = [] ++ names := by
    rw [Path.place, hnames, List.foldl_cons]
    exact foldl_follow_names _ names
  rw [way, hnames, wayFrom] at hplace
  rw [hown]
  rcases List.mem_cons.mp hplace with rfl | hplace
  · exact List.nil_prefix
  · exact prefix_of_mem_wayFrom_names hplace

theorem way_congr (h : p.components = q.components) : p.way = q.way := by
  rw [way, h, ← way]

end Way

end Path

namespace FileTree

variable {t t' : FileTree} {place : Place}

/-- Nothing changes beside the way on which folders are made. -/
theorem get?_makeFolders {here : Place} {pieces : List String}
    (h : t.makeFolders here pieces = .ok t')
    (hplace : place ∉ Path.wayFrom here (pieces.filterMap stepOf?)) :
    t'.get? place = t.get? place := by
  induction pieces generalizing t here with
  | nil =>
      cases h
      rfl
  | cons piece rest ih =>
      rw [makeFolders] at h
      rcases stepOf?_cases piece with ⟨hnone, hidle⟩ | ⟨hup, hidle, hdots⟩ | ⟨hname, hidle, hdots⟩
      · rw [if_pos (isIdle_iff.mpr hidle)] at h
        rw [List.filterMap_cons_none hnone] at hplace
        exact ih h hplace
      · rw [if_neg (isIdle_iff.not.mpr hidle), if_pos hdots] at h
        rw [List.filterMap_cons_some hup] at hplace
        exact ih h (List.not_mem_of_not_mem_cons hplace)
      · rw [if_neg (isIdle_iff.not.mpr hidle), if_neg hdots] at h
        rw [List.filterMap_cons_some hname] at hplace
        have hrest := List.not_mem_of_not_mem_cons hplace
        dsimp only at h
        split at h
        · exact ih h hrest
        · cases h
        · have hne : place ≠ here ++ [piece] := by
            rintro rfl
            exact hrest (Path.mem_wayFrom_self _ _)
          exact (ih h hrest).trans (get?_put_of_ne hne)

theorem get?_createFolders {p : Path} (h : t.createFolders p = .ok t') (hplace : place ∉ p.way) :
    t'.get? place = t.get? place := by
  unfold createFolders at h
  split at h
  · cases h
  · next pieces hpieces =>
      rw [Path.way, components_of_piecesOf? hpieces] at hplace
      exact get?_makeFolders h (List.not_mem_of_not_mem_cons hplace)

/-- A file stays where nothing is written. -/
theorem Filled.entry?_file {written : List Place} (h : t.Filled t' written) {p : Path}
    {name : String} (hname : PlainName name) (hnot : (p.join name).place ∉ written)
    {text : Option String} {time : Nat} (hfile : t.entry? (p.join name) = .ok (.file text time)) :
    t'.entry? (p.join name) = .ok (.file text time) := by
  obtain ⟨place, hreach, hget⟩ := entry?_reach hfile
  obtain rfl := reach_eq hreach
  refine (entry?_join_iff hname).mpr ⟨_, h.reach hreach, ?_⟩
  rcases h (p.join name).place with hsame | ⟨hnone, -⟩ | ⟨hwritten, -⟩
  · exact hsame.trans hget
  · cases hnone.symm.trans hget
  · exact absurd hwritten hnot

/-- Where nothing is found beside a name that is not found either, nothing stands. -/
theorem get?_beside_missing (ht : t.Closed) {p : Path} (hp : t.Anchored p) {name other : String}
    (hname : PlainName name) (hother : PlainName other)
    (hmissing : t.entry? (p.join name) = .error .notFound)
    (hnot : ¬t.holds (p.join other) = true) : t.get? (p.join other).place = none := by
  cases hget : t.get? (p.join other).place with
  | none => rfl
  | some e =>
      exfalso
      rw [Path.place_join hother] at hget
      have hfolder := ht.folder hget
      obtain ⟨steps, here, first, names, hsplit, hreach, hhere, hnone⟩ :=
        hp.vacant_join ht hname hmissing
      rw [Path.components_join hname, List.map_cons] at hsplit
      rcases List.eq_nil_or_concat names with rfl | ⟨front, last, rfl⟩
      · -- the folder is reached, so that what stands in it is found
        obtain ⟨rfl, -⟩ := List.append_inj' hsplit rfl
        obtain rfl := reach_eq hreach
        refine hnot (holds_iff.mpr ⟨e, (entry?_join_iff hother).mpr ⟨_, ?_, hget⟩⟩)
        rw [Path.components_join hother]
        exact (reach_concat _ _).mpr ⟨_, hreach, hhere, rfl⟩
      · -- the folder is missing, so that nothing can stand in it
        have hp' : p.components = steps ++ (first :: front).map .name := by
          rw [List.concat_eq_append, List.map_append, ← List.cons_append, ← List.append_assoc]
            at hsplit
          exact (List.append_inj' hsplit rfl).1
        rw [place_of_reach hp' hreach, ht.nothing_below hnone (by simp)] at hfolder
        cases hfolder

end FileTree

end ComponentAtlas
