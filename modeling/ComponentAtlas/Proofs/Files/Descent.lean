import ComponentAtlas.Proofs.Files.Closed

/-!
# Where files can be made

A path that finds no entry stops at a place where no folder stands, with some steps left. If a file
stands there, that stays so whatever is made elsewhere. If nothing stands there, the steps that are
left say what would be found after the place is filled: names only lead to what is made under
them, while a step upwards leads out of a folder that is made on the way to something that stood
all the time. An anchored path takes no such step.
-/

namespace ComponentAtlas

open ComponentAtlas.Text

namespace FileTree

/-- Why a path cannot go on where no folder stands. -/
def blocked : Option Entry → FileError
  | none => .notFound
  | some _ => .notFolder

/-- The components of a path lead to a place where no folder stands, and some are left. -/
structure Stops (t : FileTree) (p : Path) (here : Place) (rest : List Step) : Prop where
  split : ∃ steps, p.components = steps ++ rest ∧ t.reach steps = some here
  noFolder : t.get? here ≠ some .folder

/-- A path from the root that takes no step upwards behind a place where nothing stands. -/
structure Anchored (t : FileTree) (p : Path) : Prop where
  absolute : ∃ steps, p.components = .root :: steps
  noParent {here : Place} {rest : List Step} (h : t.Stops p here rest)
    (hnone : t.get? here = none) : .parent ∉ rest

/-- An anchored path that ends with a name. -/
def Seated (t : FileTree) (p : Path) : Prop :=
  ∃ (folder : Path) (name : String), PlainName name ∧ t.Anchored folder ∧ p = folder.join name

/-- From a folder a path goes on by names only, and nothing stands behind the first of them. -/
def Vacant (t : FileTree) (p : Path) : Prop :=
  ∃ (steps : List Step) (here : Place) (name : String) (names : List String),
    p.components = steps ++ (name :: names).map .name ∧ t.reach steps = some here ∧
      t.get? here = some .folder ∧ t.get? (here ++ [name]) = none

section Walk

variable {t t' : FileTree} {here mid place : Place} {piece : String} {pieces more : List String}
  {steps rest : List Step}

theorem walk_noFolder (h : t.get? here ≠ some .folder) :
    t.walk here (piece :: more) = .error (blocked (t.get? here)) := by
  rw [walk]
  cases hget : t.get? here with
  | none => rfl
  | some e =>
      cases e with
      | folder => exact absurd hget h
      | file => rfl

/-- Where components lead to no folder and some are left, their pieces lead nowhere. -/
theorem walk_of_stop (hpieces : pieces.filterMap stepOf? = steps ++ rest) (hrest : rest ≠ [])
    (hwalk : t.walkSteps here steps = some mid) (hmid : t.get? mid ≠ some .folder) :
    t.walk here pieces = .error (blocked (t.get? mid)) := by
  induction pieces generalizing here steps with
  | nil => exact absurd (List.append_eq_nil_iff.mp hpieces.symm).2 hrest
  | cons piece more ih =>
      cases steps with
      | nil =>
          cases hwalk
          exact walk_noFolder hmid
      | cons step front =>
          have hfolder := folder_of_walkSteps hwalk
          rcases stepOf?_cases piece with ⟨hnone, hp⟩ | ⟨hup, hp, hdots⟩ | ⟨hname, hp, hdots⟩
          · rw [List.filterMap_cons_none hnone] at hpieces
            rw [walk_idle hp more hfolder]
            exact ih hpieces hwalk
          · rw [List.filterMap_cons_some hup, List.cons_append, List.cons.injEq] at hpieces
            obtain ⟨rfl, hpieces⟩ := hpieces
            rw [walkSteps, if_pos hfolder] at hwalk
            simp only [walk, hfolder, if_neg hp, if_pos hdots]
            exact ih hpieces hwalk
          · rw [List.filterMap_cons_some hname, List.cons_append, List.cons.injEq] at hpieces
            obtain ⟨rfl, hpieces⟩ := hpieces
            rw [walkSteps, if_pos hfolder] at hwalk
            simp only [walk, hfolder, if_neg hp, if_neg hdots]
            exact ih hpieces hwalk

/-- Pieces that lead nowhere stop in front of one of them. -/
theorem stop_of_walk {cause : FileError} (h : t.walk here pieces = .error cause) :
    ∃ front back, pieces = front ++ back ∧ back ≠ [] ∧
      ∃ mid, t.walkSteps here (front.filterMap stepOf?) = some mid ∧
        t.get? mid ≠ some .folder ∧ cause = blocked (t.get? mid) := by
  induction pieces generalizing here with
  | nil => cases h
  | cons piece more ih =>
      by_cases hfolder : t.get? here = some .folder
      · have hstep : ∃ next, t.walk next more = .error cause ∧ ∀ front,
            t.walkSteps here ((piece :: front).filterMap stepOf?) =
              t.walkSteps next (front.filterMap stepOf?) := by
          rcases stepOf?_cases piece with ⟨hnone, hp⟩ | ⟨hup, hp, hdots⟩ | ⟨hname, hp, hdots⟩
          · rw [walk_idle hp more hfolder] at h
            exact ⟨here, h, fun front => by rw [List.filterMap_cons_none hnone]⟩
          · simp only [walk, hfolder, if_neg hp, if_pos hdots] at h
            refine ⟨_, h, fun front => ?_⟩
            rw [List.filterMap_cons_some hup, walkSteps, if_pos hfolder]
          · simp only [walk, hfolder, if_neg hp, if_neg hdots] at h
            refine ⟨_, h, fun front => ?_⟩
            rw [List.filterMap_cons_some hname, walkSteps, if_pos hfolder]
        obtain ⟨next, hnext, hsteps⟩ := hstep
        obtain ⟨front, back, rfl, hback, mid, hmid, hstop⟩ := ih hnext
        exact ⟨piece :: front, back, rfl, hback, mid, (hsteps front).trans hmid, hstop⟩
      · rw [walk_noFolder hfolder] at h
        cases h
        exact ⟨[], piece :: more, rfl, List.cons_ne_nil _ _, here, rfl, hfolder, rfl⟩

theorem walkSteps_cons {step : Step} (hfolder : t.get? here = some .folder)
    (hstep : step ≠ .root ∧ step ≠ .here) (more : List Step) :
    t.walkSteps here (step :: more) = t.walkSteps (Path.follow here step) more := by
  cases step with
  | root => exact absurd rfl hstep.1
  | here => exact absurd rfl hstep.2
  | parent => rw [walkSteps, if_pos hfolder, Path.follow]
  | name s => rw [walkSteps, if_pos hfolder, Path.follow]

theorem step_of_walkSteps {step : Step} {more : List Step}
    (h : t.walkSteps here (step :: more) = some place) : step ≠ .root ∧ step ≠ .here := by
  constructor
  all_goals
    rintro rfl
    simp [walkSteps] at h

/-- A way through one tree leads through another one too, or stops there on the way. -/
theorem walkSteps_or_stop (t : FileTree) (h : t'.walkSteps here steps = some place) :
    t.walkSteps here steps = some place ∨ ∃ front back, steps = front ++ back ∧ back ≠ [] ∧
      ∃ mid, t.walkSteps here front = some mid ∧ t.get? mid ≠ some .folder := by
  induction steps generalizing here with
  | nil => exact .inl h
  | cons step more ih =>
      by_cases hfolder : t.get? here = some .folder
      · have hstep := step_of_walkSteps h
        rw [walkSteps_cons (folder_of_walkSteps h) hstep] at h
        rcases ih h with hwalk | ⟨front, back, rfl, hback, mid, hmid, hstop⟩
        · exact .inl ((walkSteps_cons hfolder hstep more).trans hwalk)
        · exact .inr ⟨step :: front, back, rfl, hback, mid,
            (walkSteps_cons hfolder hstep front).trans hmid, hstop⟩
      · exact .inr ⟨[], step :: more, rfl, List.cons_ne_nil _ _, here, rfl, hfolder⟩

theorem reach_append {front back : List Step} (h : t.reach front = some mid) :
    t.reach (front ++ back) = t.walkSteps mid back := by
  unfold reach at h
  split at h
  · rw [List.cons_append, reach, walkSteps_append, h]
    rfl
  · cases h

theorem reach_or_stop (t : FileTree) (h : t'.reach steps = some place) :
    t.reach steps = some place ∨ ∃ front back, steps = front ++ back ∧ back ≠ [] ∧
      ∃ mid, t.reach front = some mid ∧ t.get? mid ≠ some .folder := by
  unfold reach at h
  split at h
  · next more =>
      rcases walkSteps_or_stop t h with hwalk | ⟨front, back, rfl, hback, hstop⟩
      · exact .inl hwalk
      · exact .inr ⟨.root :: front, back, rfl, hback, hstop⟩
  · cases h

end Walk

section Entry

variable {t : FileTree} {p : Path} {name : String} {here : Place} {rest : List Step}

/-- A path that ends with a name finds no entry if its components lead to nothing, or to a file
with some of them left. -/
theorem entry?_of_stops (hname : PlainName name) (h : t.Stops (p.join name) here rest)
    (hend : rest = [] → t.get? here = none) :
    t.entry? (p.join name) = .error (blocked (t.get? here)) := by
  obtain ⟨⟨steps, hsteps, hreach⟩, hfolder⟩ := h
  by_cases hrest : rest = []
  · rw [hrest, List.append_nil] at hsteps
    rw [← hsteps] at hreach
    have hnone := hend hrest
    simp [ entry?, resolve_join hname hreach, hnone, blocked, bind, Except.bind]
  · unfold reach at hreach
    split at hreach
    · next more =>
        obtain ⟨pieces, hpieces, hfilter⟩ := piecesOf?_of_components hsteps
        have hwalk := walk_of_stop hfilter hrest hreach hfolder
        simp [ entry?, resolve, hpieces, hwalk, bind, Except.bind]
    · cases hreach

/-- A path that finds no entry stops in front of its end, or at its end where nothing stands. -/
theorem stops_of_entry? (hname : PlainName name)
    (habsolute : ∃ steps, p.components = .root :: steps) {cause : FileError}
    (h : t.entry? (p.join name) = .error cause) :
    ∃ here rest, t.Stops (p.join name) here rest ∧ (rest = [] → t.get? here = none) ∧
      cause = blocked (t.get? here) := by
  obtain ⟨more, hmore⟩ := habsolute
  have hjoin : (p.join name).components = .root :: (more ++ [.name name]) := by
    rw [Path.components_join hname, hmore, List.cons_append]
  obtain ⟨pieces, hpieces, hfilter⟩ := piecesOf?_of_components hjoin
  cases hwalk : t.walk [] pieces with
  | ok place =>
      have hresolve : t.resolve (p.join name) = .ok place := by
        simp only [resolve, hpieces, hwalk]
      simp only [ entry?, hresolve, bind, Except.bind] at h
      split at h
      · cases h
      · next hnone =>
          cases h
          refine ⟨place, [], ⟨⟨_, (List.append_nil _).symm, reach_of_resolve hresolve⟩, ?_⟩,
            fun _ => hnone, by rw [hnone]; rfl⟩
          rw [hnone]
          rintro ⟨⟩
  | error stopped =>
      have hresolve : t.resolve (p.join name) = .error stopped := by
        simp only [resolve, hpieces, hwalk]
      simp only [ entry?, hresolve, bind, Except.bind] at h
      cases h
      obtain ⟨front, back, rfl, hback, mid, hmid, hfolder, rfl⟩ := stop_of_walk hwalk
      rw [List.filterMap_append] at hfilter
      refine ⟨mid, back.filterMap stepOf?, ⟨⟨.root :: front.filterMap stepOf?, ?_, hmid⟩, hfolder⟩,
        fun hrest => absurd hrest ?_, rfl⟩
      · rw [hjoin, ← hfilter, List.cons_append]
      · -- The last piece is a name, and it is left.
        have hlast := getLast?_piecesOf?_join hname hpieces
        rw [List.getLast?_append_of_ne_nil _ hback] at hlast
        have hmem : .name name ∈ back.filterMap stepOf? := by
          refine List.mem_filterMap.mpr ⟨name, List.mem_of_getLast? hlast, ?_⟩
          rw [stepOf?, hname.isName]
        exact List.ne_nil_of_mem hmem

end Entry

section Vacant

variable {t : FileTree} {p : Path} {name : String} {here : Place} {steps rest : List Step}

/-- Nothing stands below a place where nothing stands. -/
theorem Closed.nothing_below (ht : t.Closed) {outer inner : Place} (hnone : t.get? outer = none)
    (h : outer <+: inner) : t.get? inner = none := by
  obtain ⟨names, rfl⟩ := h
  by_cases hnames : names = []
  · rw [hnames, List.append_nil, hnone]
  · cases hget : t.get? (outer ++ names) with
    | none => rfl
    | some e =>
        rw [ht.folder_of_append hnames hget] at hnone
        cases hnone

/-- Behind the root a path has names and steps upwards. -/
theorem exists_names (habsolute : ∃ more, p.components = .root :: more)
    (hsplit : p.components = steps ++ rest) (hsteps : steps ≠ []) (hrest : .parent ∉ rest) :
    ∃ names : List String, rest = names.map .name := by
  obtain ⟨more, hmore⟩ := habsolute
  obtain ⟨pieces, -, rfl⟩ := piecesOf?_of_components hmore
  obtain ⟨first, front, rfl⟩ := List.exists_cons_of_ne_nil hsteps
  rw [hmore, List.cons_append, List.cons.injEq] at hsplit
  have hname : ∀ s ∈ rest, ∃ n, Step.name n = s := by
    intro s hs
    have hmem : s ∈ pieces.filterMap stepOf? := by
      rw [hsplit.2]
      exact List.mem_append_right _ hs
    obtain ⟨piece, -, hpiece⟩ := List.mem_filterMap.mp hmem
    rcases stepOf?_cases piece with ⟨hnone, -⟩ | ⟨hup, -⟩ | ⟨hname, -⟩
    · rw [hnone] at hpiece
      cases hpiece
    · rw [hup] at hpiece
      cases hpiece
      exact absurd hs hrest
    · rw [hname] at hpiece
      exact ⟨piece, Option.some.inj hpiece⟩
  clear hsplit hrest
  induction rest with
  | nil => exact ⟨[], rfl⟩
  | cons s rest ih =>
      obtain ⟨⟨n, rfl⟩, hrest⟩ := List.forall_mem_cons.mp hname
      obtain ⟨names, rfl⟩ := ih hrest
      exact ⟨n :: names, rfl⟩

/-- The last component leads to the root, or on from a folder. -/
theorem follow_of_reach {last : Step} (h : t.reach (steps ++ [last]) = some here) :
    here = [] ∨ ∃ outer, t.reach steps = some outer ∧ t.get? outer = some .folder ∧
      (last ≠ .root ∧ last ≠ .here) ∧ here = Path.follow outer last := by
  cases steps with
  | nil =>
      cases last with
      | root =>
          cases h
          exact .inl rfl
      | _ => cases h
  | cons first more =>
      cases first with
      | root =>
          rw [List.cons_append, reach, walkSteps_append] at h
          obtain ⟨outer, houter, hlast⟩ := Option.bind_eq_some_iff.mp h
          have hfolder := folder_of_walkSteps hlast
          have hstep := step_of_walkSteps hlast
          rw [walkSteps_cons hfolder hstep] at hlast
          exact .inr ⟨outer, houter, hfolder, hstep, (Option.some.inj hlast).symm⟩
      | _ => cases h

/-- Components lead to a place where nothing stands by a name in a folder. -/
theorem exists_last_of_reach (ht : t.Closed) (hreach : t.reach steps = some here)
    (hnone : t.get? here = none) : ∃ front outer name, steps = front ++ [.name name] ∧
      t.reach front = some outer ∧ t.get? outer = some .folder ∧ outer ++ [name] = here := by
  rcases List.eq_nil_or_concat steps with rfl | ⟨front, last, rfl⟩
  · cases hreach
  rw [List.concat_eq_append] at hreach ⊢
  rcases follow_of_reach hreach with rfl | ⟨outer, houter, hfolder, hlast, rfl⟩
  · cases hnone
  · cases last with
    | root => exact absurd rfl hlast.1
    | here => exact absurd rfl hlast.2
    | parent =>
        rw [Path.follow, ht.folder_dropLast hfolder] at hnone
        cases hnone
    | name s => exact ⟨front, outer, s, rfl, houter, hfolder, rfl⟩

/-- Where an anchored path stops at nothing, only names are left. -/
theorem Anchored.vacant (hp : t.Anchored p) (ht : t.Closed) (h : t.Stops p here rest)
    (hnone : t.get? here = none) : t.Vacant p := by
  obtain ⟨steps, hsplit, hreach⟩ := h.split
  obtain ⟨front, outer, name, rfl, houter, hfolder, rfl⟩ := exists_last_of_reach ht hreach hnone
  obtain ⟨names, rfl⟩ := exists_names hp.absolute hsplit (by simp) (hp.noParent h hnone)
  refine ⟨front, outer, name, names, ?_, houter, hfolder, hnone⟩
  rw [hsplit, List.append_assoc]
  rfl

theorem place_of_reach {names : List String} (h : p.components = steps ++ names.map .name)
    (hreach : t.reach steps = some here) : p.place = here ++ names := by
  rw [Path.place_of_components h, ← reach_eq hreach]

theorem Vacant.get?_place (h : t.Vacant p) (ht : t.Closed) : t.get? p.place = none := by
  obtain ⟨steps, here, name, names, hsplit, hreach, -, hnone⟩ := h
  rw [place_of_reach hsplit hreach]
  exact ht.nothing_below hnone (by simp)

/-- A path without steps upwards is anchored in every tree. -/
theorem anchored_of_straight (h : p.Straight) (t : FileTree) : t.Anchored p := by
  obtain ⟨names, hnames⟩ := h
  refine ⟨⟨_, hnames⟩, fun {here rest} hstop _ hmem => ?_⟩
  obtain ⟨steps, hsplit, -⟩ := hstop.split
  have hparent : .parent ∈ p.components := by
    rw [hsplit]
    exact List.mem_append_right _ hmem
  rw [hnames] at hparent
  simp at hparent

/-- A name that is joined leaves a path anchored. -/
theorem Anchored.join (hp : t.Anchored p) (hname : PlainName name) : t.Anchored (p.join name) := by
  have hjoin := Path.components_join (p := p) hname
  obtain ⟨more, hmore⟩ := hp.absolute
  refine ⟨⟨more ++ [.name name], by rw [hjoin, hmore, List.cons_append]⟩, ?_⟩
  intro here rest hstop hnone hparent
  obtain ⟨steps, hsplit, hreach⟩ := hstop.split
  rcases List.eq_nil_or_concat rest with rfl | ⟨front, last, rfl⟩
  · cases hparent
  rw [List.concat_eq_append] at hsplit hparent
  rw [hjoin, ← List.append_assoc] at hsplit
  obtain ⟨hfront, hlast⟩ := List.append_inj' hsplit rfl
  cases hlast
  refine hp.noParent ⟨⟨steps, hfront, hreach⟩, hstop.noFolder⟩ hnone ?_
  simpa using hparent

end Vacant

end FileTree

end ComponentAtlas
