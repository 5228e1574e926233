import ComponentAtlas.Proofs.Files.Filling

/-!
# Files laid into a tree

A text can be written to an anchored path that leads to a file or finds nothing: the folders that
are missing in front of the file are made. Nothing else changes: a seated path to another place
finds what it found before, if it found anything.
-/

namespace ComponentAtlas

open ComponentAtlas.Text

namespace FileTree

/-- The tree after a text is written at a place: the folders in front of it stand. -/
structure Laid (t t' : FileTree) (place : Place) (text : String) : Prop where
  noFolder : t.get? place ≠ some .folder
  closed : t'.Closed
  get? (other : Place) : t'.get? other =
    if other = place then some (.file (some text) 0)
    else if other <+: place ∧ t.get? other = none then some .folder
    else t.get? other

/-- A file of which another tree has kept what it held, if anything was found in its place, and
which was not written there. -/
structure Spared (t t' : FileTree) (f : Path) : Prop where
  kept (h : t.entry? f ≠ .error .notFound) : t'.entry? f = t.entry? f
  file {text : Option String} {time : Nat} (h : t'.entry? f = .ok (.file text time)) :
    t.entry? f = .ok (.file text time)

theorem Spared.refl (t : FileTree) (f : Path) : t.Spared t f :=
  ⟨fun _ => rfl, id⟩

theorem Spared.trans {t t' t'' : FileTree} {f : Path} (h : t.Spared t' f) (h' : t'.Spared t'' f) :
    t.Spared t'' f where
  kept hfound := (h'.kept ((h.kept hfound).symm ▸ hfound)).trans (h.kept hfound)
  file hfile := h.file (h'.file hfile)

section Make

variable {t : FileTree} {here mid : Place} {pieces names : List String} {steps rest : List Step}

/-- Folders that stand on the way stay as they are. -/
theorem makeFolders_of_walkSteps (hpieces : pieces.filterMap stepOf? = steps ++ rest)
    (hwalk : t.walkSteps here steps = some mid) (hmid : t.get? mid = some .folder) :
    ∃ back, back.filterMap stepOf? = rest ∧
      t.makeFolders here pieces = t.makeFolders mid back := by
  induction pieces generalizing here steps with
  | nil =>
      obtain ⟨rfl, rfl⟩ := List.append_eq_nil_iff.mp hpieces.symm
      cases hwalk
      exact ⟨[], rfl, rfl⟩
  | cons piece more ih =>
      cases steps with
      | nil =>
          cases hwalk
          exact ⟨piece :: more, hpieces, rfl⟩
      | cons step front =>
          have hfolder := folder_of_walkSteps hwalk
          rcases stepOf?_cases piece with ⟨hnone, hp⟩ | ⟨hup, hp, hdots⟩ | ⟨hname, hp, hdots⟩
          · rw [List.filterMap_cons_none hnone] at hpieces
            rw [makeFolders, if_pos (isIdle_iff.mpr hp)]
            exact ih hpieces hwalk
          · rw [List.filterMap_cons_some hup, List.cons_append, List.cons.injEq] at hpieces
            obtain ⟨rfl, hpieces⟩ := hpieces
            rw [walkSteps, if_pos hfolder] at hwalk
            rw [makeFolders, if_neg (isIdle_iff.not.mpr hp), if_pos hdots]
            exact ih hpieces hwalk
          · rw [List.filterMap_cons_some hname, List.cons_append, List.cons.injEq] at hpieces
            obtain ⟨rfl, hpieces⟩ := hpieces
            rw [walkSteps, if_pos hfolder] at hwalk
            have hnext : t.get? (here ++ [piece]) = some .folder := by
              cases front with
              | nil =>
                  cases hwalk
                  exact hmid
              | cons => exact folder_of_walkSteps hwalk
            rw [makeFolders, if_neg (isIdle_iff.not.mpr hp), if_neg hdots]
            simp only [hnext]
            exact ih hpieces hwalk

/-- Below a folder the folders of some names can be made where no file is in the way. -/
theorem makeFolders_names (ht : t.Closed) (hhere : t.get? here = some .folder)
    (hpieces : pieces.filterMap stepOf? = names.map .name)
    (hfree : ∀ front, front <+: names → ∀ text time,
      t.get? (here ++ front) ≠ some (.file text time)) :
    ∃ t', t.makeFolders here pieces = .ok t' ∧ ∀ other, t'.get? other =
      if other <+: here ++ names ∧ t.get? other = none then some .folder else t.get? other := by
  induction pieces generalizing t here names with
  | nil =>
      obtain rfl := List.map_eq_nil_iff.mp hpieces.symm
      refine ⟨t, rfl, fun other => (if_neg ?_).symm⟩
      rintro ⟨hother, hnone⟩
      rw [List.append_nil] at hother
      rw [ht.nothing_below hnone hother] at hhere
      cases hhere
  | cons piece more ih =>
      rcases stepOf?_cases piece with ⟨hnone, hp⟩ | ⟨hup, hp, hdots⟩ | ⟨hname, hp, hdots⟩
      · rw [List.filterMap_cons_none hnone] at hpieces
        rw [makeFolders, if_pos (isIdle_iff.mpr hp)]
        exact ih ht hhere hpieces hfree
      · rw [List.filterMap_cons_some hup] at hpieces
        cases names <;> simp at hpieces
      · rw [List.filterMap_cons_some hname] at hpieces
        cases names with
        | nil => cases hpieces
        | cons first names =>
            rw [List.map_cons, List.cons.injEq, Step.name.injEq] at hpieces
            obtain ⟨rfl, hpieces⟩ := hpieces
            rw [makeFolders, if_neg (isIdle_iff.not.mpr hp), if_neg hdots]
            have hsplit : here ++ piece :: names = here ++ [piece] ++ names := by simp
            have hrest : ∀ front, front <+: names → ∀ text time,
                t.get? (here ++ [piece] ++ front) ≠ some (.file text time) := by
              intro front hfront
              rw [List.append_assoc]
              exact hfree (piece :: front) (List.cons_prefix_cons.mpr ⟨rfl, hfront⟩)
            rw [hsplit]
            dsimp only
            cases hnext : t.get? (here ++ [piece]) with
            | some e =>
                cases e with
                | folder => exact ih ht hnext hpieces hrest
                | file text time => exact absurd hnext (hfree [piece] (by simp) text time)
            | none =>
                have hput := ht.put (e := .folder) hhere (hnext ▸ (Option.some_ne_none _).symm)
                have hself : (t.put (here ++ [piece]) .folder).get? (here ++ [piece]) =
                    some .folder := get?_put_self (by simp)
                obtain ⟨t', hmake, hget⟩ := ih hput hself hpieces fun front hfront text time => by
                  by_cases hother : here ++ [piece] ++ front = here ++ [piece]
                  · rw [hother, hself]
                    rintro ⟨⟩
                  · rw [get?_put_of_ne hother]
                    exact hrest front hfront text time
                refine ⟨t', hmake, fun other => (hget other).trans ?_⟩
                by_cases hother : other = here ++ [piece]
                · rw [hother, hself, hnext, if_neg (fun h => Option.some_ne_none _ h.2),
                    if_pos ⟨List.prefix_append _ _, rfl⟩]
                · rw [get?_put_of_ne hother]

/-- The folders on the way of a path can be made where only names are missing. -/
theorem exists_createFolders {p : Path} (ht : t.Closed)
    (hp : p.components = steps ++ names.map .name) (hreach : t.reach steps = some here)
    (hhere : t.get? here = some .folder)
    (hfree : ∀ front, front <+: names → ∀ text time,
      t.get? (here ++ front) ≠ some (.file text time)) :
    ∃ t', t.createFolders p = .ok t' ∧ ∀ other, t'.get? other =
      if other <+: p.place ∧ t.get? other = none then some .folder else t.get? other := by
  rw [place_of_reach hp hreach]
  unfold reach at hreach
  split at hreach
  · obtain ⟨pieces, hpieces, hfilter⟩ := piecesOf?_of_components hp
    obtain ⟨back, hback, hmake⟩ := makeFolders_of_walkSteps hfilter hreach hhere
    obtain ⟨t', ht', hget⟩ := makeFolders_names ht hhere hback hfree
    refine ⟨t', ?_, hget⟩
    simp only [createFolders, hpieces]
    exact hmake.trans ht'
  · cases hreach

/-- A path leads to its folder after that is made. -/
theorem reach_of_made {t' : FileTree} {p : Path} (ht' : t'.Closed)
    (hp : p.components = steps ++ names.map .name) (hreach : t.reach steps = some here)
    (hfree : ∀ front, front <+: names → ∀ text time,
      t.get? (here ++ front) ≠ some (.file text time))
    (hget : ∀ other, t'.get? other =
      if other <+: p.place ∧ t.get? other = none then some .folder else t.get? other) :
    t'.reach p.components = some p.place ∧ t'.get? p.place = some .folder := by
  have hhome : t'.get? p.place = some .folder := by
    rw [hget]
    split
    · rfl
    · next hstands =>
        rw [place_of_reach hp hreach] at hstands ⊢
        cases hentry : t.get? (here ++ names) with
        | none => exact absurd ⟨List.prefix_rfl, hentry⟩ hstands
        | some e =>
            cases e with
            | folder => rfl
            | file text time => exact absurd hentry (hfree names List.prefix_rfl text time)
  refine ⟨?_, hhome⟩
  have hkept : ∀ place, t.get? place = some .folder → t'.get? place = some .folder := by
    intro place hplace
    rw [hget, hplace, if_neg fun h => nomatch h.2]
  rw [place_of_reach hp hreach] at hhome ⊢
  rw [hp, reach_append (reach_of_folders hkept hreach)]
  exact ht'.walkSteps_names hhome

/-- Where an anchored path finds nothing, only names are missing. -/
theorem Anchored.vacant_join {p : Path} {name : String} (hp : t.Anchored p) (ht : t.Closed)
    (hname : PlainName name) (h : t.entry? (p.join name) = .error .notFound) :
    t.Vacant (p.join name) := by
  obtain ⟨here, rest, hstop, -, hcause⟩ := stops_of_entry? hname hp.absolute h
  refine (hp.join hname).vacant ht hstop ?_
  cases hget : t.get? here with
  | none => rfl
  | some e =>
      rw [hget] at hcause
      cases hcause

/-- A path that leads to a file or finds nothing goes on by names from a folder to its own one. -/
theorem exists_way {p : Path} {name : String} (ht : t.Closed) (hname : PlainName name)
    (h : (∃ text time, t.entry? (p.join name) = .ok (.file text time)) ∨ t.Vacant (p.join name)) :
    ∃ steps here names, p.components = steps ++ names.map .name ∧ t.reach steps = some here ∧
      t.get? here = some .folder ∧
        (∀ front, front <+: names → ∀ text time, t.get? (here ++ front) ≠ some (.file text time)) ∧
          t.get? (p.join name).place ≠ some .folder := by
  rcases h with ⟨text, time, hfile⟩ | ⟨steps, here, first, names, hsplit, hreach, hhere, hnone⟩
  · obtain ⟨here, hreach, hhere, -⟩ := entry?_join_reach hname hfile
    refine ⟨p.components, here, [], (List.append_nil _).symm, hreach, hhere, ?_, ?_⟩
    · intro front hfront
      rw [List.prefix_nil.mp hfront, List.append_nil, hhere]
      exact fun _ _ he => nomatch he
    · rw [get?_place hfile]
      exact fun he => nomatch he
  · have hplace := place_of_reach hsplit hreach
    have hempty : ∀ inner, here ++ [first] <+: inner → t.get? inner = none :=
      fun inner => ht.nothing_below hnone
    obtain ⟨front, last, hlast⟩ : ∃ front last, first :: names = front ++ [last] :=
      ⟨_, _, (List.dropLast_concat_getLast (List.cons_ne_nil first names)).symm⟩
    have hp : p.components = steps ++ front.map .name := by
      rw [Path.components_join hname, hlast, List.map_append, ← List.append_assoc] at hsplit
      exact (List.append_inj' hsplit rfl).1
    refine ⟨steps, here, front, hp, hreach, hhere, ?_, ?_⟩
    · intro inner hinner text time
      rcases inner with _ | ⟨second, inner⟩
      · rw [List.append_nil, hhere]
        exact fun he => nomatch he
      · have hlies : second :: inner <+: first :: names :=
          hinner.trans (hlast ▸ List.prefix_append _ _)
        rw [(List.cons_prefix_cons.mp hlies).1, hempty _ (by simp)]
        exact fun he => nomatch he
    · rw [hplace, hempty _ (by simp)]
      exact fun he => nomatch he

/-- A text can be written to a path that leads to a file or finds nothing. -/
theorem exists_laid {p folder : Path} {name : String} (ht : t.Closed) (hname : PlainName name)
    (hfolder : folder.components = p.components)
    (h : (∃ text time, t.entry? (p.join name) = .ok (.file text time)) ∨ t.Vacant (p.join name))
    (text : String) :
    ∃ made t', t.createFolders folder = .ok made ∧ made.write (p.join name) text = .ok t' ∧
      t.Laid t' (p.join name).place text ∧
        t'.entry? (p.join name) = .ok (.file (some text) 0) := by
  obtain ⟨steps, here, names, hp, hreach, hhere, hfree, hplace⟩ := exists_way ht hname h
  have hsplit := hfolder.trans hp
  obtain ⟨made, hmake, hget⟩ := exists_createFolders ht hsplit hreach hhere hfree
  have hclosed := createFolders_closed ht hmake
  obtain ⟨hlead, hhome⟩ := reach_of_made hclosed hsplit hreach hfree hget
  rw [Path.place_congr hfolder] at hget hlead hhome
  rw [hfolder] at hlead
  rw [Path.place_join hname] at hplace ⊢
  have hnot : made.get? (p.place ++ [name]) ≠ some .folder := by
    rw [hget, if_neg]
    · exact hplace
    · rintro ⟨hlies, -⟩
      have hlength := hlies.length_le
      rw [List.length_append, List.length_singleton] at hlength
      omega
  have hjoin : made.reach (p.join name).components = some (p.place ++ [name]) := by
    rw [Path.components_join hname]
    exact (reach_concat _ _).mpr ⟨p.place, hlead, hhome, rfl⟩
  have hresolve := resolve_join hname hjoin
  refine ⟨made, made.put (p.place ++ [name]) (.file (some text) 0), hmake, ?_,
    ⟨hplace, hclosed.put hhome hnot, fun other => ?_⟩, ?_⟩
  · simp only [write, hresolve, bind, Except.bind]
  · by_cases hother : other = p.place ++ [name]
    · rw [if_pos hother, hother, get?_put_self (by simp)]
    · rw [if_neg hother, get?_put_of_ne hother, hget]
      simp only [List.prefix_concat_iff, hother, false_or]
  · refine (entry?_join_iff hname).mpr ⟨_, reach_of_folders (fun other hfolder => ?_) hjoin,
      get?_put_self (by simp)⟩
    rw [get?_put_of_ne, hfolder]
    rintro rfl
    exact hnot hfolder

end Make

namespace Laid

variable {t t' : FileTree} {place : Place} {text : String} (h : t.Laid t' place text)
include h

theorem get?_self : t'.get? place = some (.file (some text) 0) := by
  rw [h.get?, if_pos rfl]

/-- What stands elsewhere stays. -/
theorem get?_of_stands {other : Place} {e : Entry} (hne : other ≠ place)
    (he : t.get? other = some e) : t'.get? other = some e := by
  rw [h.get?, if_neg hne, if_neg (fun hnone => ?_), he]
  rw [he] at hnone
  cases hnone.2

theorem filled : t.Filled t' [place] := by
  intro other
  by_cases hother : other = place
  · subst hother
    exact .inr (.inr ⟨List.mem_singleton_self _, h.noFolder, text, h.get?_self⟩)
  · have hget := h.get? other
    rw [if_neg hother] at hget
    split at hget
    · next hnew => exact .inr (.inl ⟨hnew.2, hget⟩)
    · exact .inl hget

theorem stands {other : Place} (he : t.get? other ≠ none) : t'.get? other ≠ none :=
  h.filled.stands he

theorem reach {steps : List Step} {here : Place} (hreach : t.reach steps = some here) :
    t'.reach steps = some here :=
  h.filled.reach hreach

theorem seated {p : Path} (hp : t.Seated p) : t'.Seated p := by
  obtain ⟨folder, name, hname, hfolder, rfl⟩ := hp
  exact ⟨folder, name, hname, h.filled.anchored hfolder, rfl⟩

/-- What a path to another place has found, or what has been in its way, is there still. -/
theorem entry?_of_found {f : Path} (hf : t.Seated f) (hne : f.place ≠ place)
    (hfound : t.entry? f ≠ .error .notFound) : t'.entry? f = t.entry? f := by
  obtain ⟨p, name, hname, hp, rfl⟩ := hf
  cases hentry : t.entry? (p.join name) with
  | ok e =>
      obtain ⟨here, hreach, he⟩ := entry?_reach hentry
      obtain rfl : here = (p.join name).place := reach_eq hreach
      exact (entry?_join_iff hname).mpr ⟨_, h.reach hreach, h.get?_of_stands hne he⟩
  | error cause =>
      obtain ⟨here, rest, hstop, hend, rfl⟩ := stops_of_entry? hname hp.absolute hentry
      cases hget : t.get? here with
      | none =>
          rw [hget] at hentry
          exact absurd hentry hfound
      | some e =>
          cases e with
          | folder => exact absurd hget hstop.noFolder
          | file old time =>
              obtain ⟨steps, hsplit, hreach⟩ := hstop.split
              obtain ⟨new, time', hnew⟩ := h.filled.file hget
              have hstop' : t'.Stops (p.join name) here rest :=
                ⟨⟨steps, hsplit, h.reach hreach⟩, by rw [hnew]; exact fun he => nomatch he⟩
              rw [entry?_of_stops hname hstop', hnew]
              · rfl
              · intro hrest
                rw [hend hrest] at hget
                cases hget

/-- What is found at a place that was not written stood there before, or is a new folder. -/
theorem entry?_of_stood (ht : t.Closed) {f : Path} (hf : t.Seated f) (hne : f.place ≠ place)
    {e : Entry} (he : t'.entry? f = .ok e) (hold : t.get? f.place = some e) :
    t.entry? f = .ok e := by
  by_cases hfound : t.entry? f = .error .notFound
  · obtain ⟨p, name, hname, hp, rfl⟩ := hf
    rw [(hp.vacant_join ht hname hfound).get?_place ht] at hold
    cases hold
  · rw [← h.entry?_of_found hf hne hfound, he]

/-- A file at another place is spared. -/
theorem spared (ht : t.Closed) {f : Path} (hf : t.Seated f) (hne : f.place ≠ place) :
    t.Spared t' f where
  kept := h.entry?_of_found hf hne
  file {text time} hfile := by
    refine h.entry?_of_stood ht hf hne hfile ?_
    have hget := get?_place hfile
    rw [h.get?, if_neg hne] at hget
    split at hget
    · cases hget
    · exact hget

/-- Whether something is found at a place that is not in front of the file stays so. -/
theorem holds (ht : t.Closed) {f : Path} (hf : t.Seated f) (hne : f.place ≠ place)
    (hclear : f.place <+: place → t.get? f.place ≠ none) : t'.holds f = t.holds f := by
  by_cases hfound : t.entry? f = .error .notFound
  · cases he : t'.entry? f with
    | error cause =>
        rw [FileTree.holds, he, FileTree.holds, hfound]
        rfl
    | ok e =>
        have hget := get?_place he
        rw [h.get?, if_neg hne, if_neg fun hnew => hclear hnew.1 hnew.2] at hget
        rw [h.entry?_of_stood ht hf hne he hget] at hfound
        cases hfound
  · rw [FileTree.holds, h.entry?_of_found hf hne hfound, FileTree.holds]

end Laid

end FileTree

end ComponentAtlas
