import ComponentAtlas.Proofs.Files.Descent

/-!
# Trees in which files are written

However files are written into a tree, with the folders that are missing around them, a folder
stays a folder and a file stays a file, and what is new is one of these files or a folder. A path
leads to a folder afterwards only if it did so before, or if it found nothing.
-/

namespace ComponentAtlas

open ComponentAtlas.Text

namespace FileTree

section Missing

variable {t : FileTree} {p : Path} {here mid : Place} {rest : List Step}

/-- A path stops at one place only. -/
theorem Stops.unique (h : t.Stops p here rest) {rest' : List Step} (h' : t.Stops p mid rest') :
    here = mid := by
  have hgoes : ∀ {front back : List Step} {place place' : Place}, t.reach front = some place →
      t.get? place ≠ some .folder → t.reach (front ++ back) = some place' → place = place' := by
    intro front back place place' hreach hfolder hmore
    rw [reach_append hreach] at hmore
    cases back with
    | nil => exact Option.some.inj hmore
    | cons step more => exact absurd (folder_of_walkSteps hmore) hfolder
  obtain ⟨steps, hsplit, hreach⟩ := h.split
  obtain ⟨steps', hsplit', hreach'⟩ := h'.split
  rw [hsplit] at hsplit'
  rcases List.append_eq_append_iff.mp hsplit' with ⟨more, rfl, -⟩ | ⟨more, rfl, -⟩
  · exact hgoes hreach h.noFolder hreach'
  · exact (hgoes hreach' h'.noFolder hreach).symm

theorem Stops.not_reach (h : t.Stops p here rest) (hnone : t.get? here = none) {place : Place}
    {e : Entry} (hreach : t.reach p.components = some place) : t.get? place ≠ some e := by
  intro he
  obtain ⟨steps, hsplit, hfront⟩ := h.split
  rw [hsplit, reach_append hfront] at hreach
  cases rest with
  | nil =>
      obtain rfl := Option.some.inj hreach
      rw [hnone] at he
      cases he
  | cons step more => exact h.noFolder (folder_of_walkSteps hreach)

/-- A path finds nothing exactly if it stops where nothing stands. -/
theorem missing_iff (habsolute : ∃ steps, p.components = .root :: steps) :
    t.entry? p = .error .notFound ↔ ∃ here rest, t.Stops p here rest ∧ t.get? here = none := by
  obtain ⟨more, hmore⟩ := habsolute
  obtain ⟨pieces, hpieces, hfilter⟩ := piecesOf?_of_components hmore
  cases hwalk : t.walk [] pieces with
  | ok place =>
      have hresolve : t.resolve p = .ok place := by simp only [resolve, hpieces, hwalk]
      have hreach := reach_of_resolve hresolve
      cases hget : t.get? place with
      | some e =>
          rw [ entry?_of_resolve hresolve hget]
          refine iff_of_false (by rintro ⟨⟩) ?_
          rintro ⟨here, rest, hstop, hnone⟩
          exact hstop.not_reach hnone hreach hget
      | none =>
          refine iff_of_true ?_ ⟨place, [], ⟨⟨_, (List.append_nil _).symm, hreach⟩, ?_⟩, hget⟩
          · simp [ entry?, hresolve, hget, bind, Except.bind]
          · rw [hget]
            rintro ⟨⟩
  | error cause =>
      have hresolve : t.resolve p = .error cause := by simp only [resolve, hpieces, hwalk]
      obtain ⟨front, back, rfl, -, mid, hmid, hfolder, rfl⟩ := stop_of_walk hwalk
      rw [List.filterMap_append] at hfilter
      have hstop : t.Stops p mid (back.filterMap stepOf?) :=
        ⟨⟨.root :: front.filterMap stepOf?, by rw [hmore, ← hfilter, List.cons_append], hmid⟩,
          hfolder⟩
      have hentry : t.entry? p = .error (blocked (t.get? mid)) := by
        simp [ entry?, hresolve, bind, Except.bind]
      rw [hentry]
      constructor
      · intro hblocked
        refine ⟨mid, _, hstop, ?_⟩
        cases hget : t.get? mid with
        | none => rfl
        | some e =>
            rw [hget] at hblocked
            cases hblocked
      · rintro ⟨here, rest, hstop', hnone⟩
        rw [hstop.unique hstop', hnone]
        rfl

/-- Where no file is in the way, names lead from a folder to a folder, or stop at nothing. -/
theorem walkSteps_names_or_stop {names : List String} (hhere : t.get? here = some .folder)
    (hfree : ∀ front, front <+: names → ∀ text time,
      t.get? (here ++ front) ≠ some (.file text time)) :
    (t.walkSteps here (names.map .name) = some (here ++ names) ∧
        t.get? (here ++ names) = some .folder) ∨
      ∃ front back, names = front ++ back ∧
        t.walkSteps here (front.map .name) = some (here ++ front) ∧
          t.get? (here ++ front) = none := by
  induction names generalizing here with
  | nil => exact .inl ⟨by simp [walkSteps], by simpa using hhere⟩
  | cons name names ih =>
      have hstep : ∀ inner : List String, t.walkSteps here ((name :: inner).map .name) =
          t.walkSteps (here ++ [name]) (inner.map .name) := by
        intro inner
        rw [List.map_cons, walkSteps, if_pos hhere]
      have hplace : ∀ inner : List String, here ++ name :: inner = here ++ [name] ++ inner := by
        simp
      cases hnext : t.get? (here ++ [name]) with
      | none => exact .inr ⟨[name], names, rfl, by rw [hstep]; rfl, hnext⟩
      | some e =>
          cases e with
          | file text time => exact absurd hnext (hfree [name] (by simp) text time)
          | folder =>
              have hrest : ∀ front, front <+: names → ∀ text time,
                  t.get? (here ++ [name] ++ front) ≠ some (.file text time) := by
                intro front hfront
                rw [← hplace]
                exact hfree (name :: front) (List.cons_prefix_cons.mpr ⟨rfl, hfront⟩)
              rcases ih hnext hrest with ⟨hwalk, hfolder⟩ | ⟨front, back, rfl, hwalk, hnone⟩
              · exact .inl ⟨by rw [hstep, hwalk, hplace names], by rw [hplace, hfolder]⟩
              · exact .inr ⟨name :: front, back, rfl, by rw [hstep, hwalk, hplace front],
                  by rw [hplace, hnone]⟩

end Missing

/-- A tree in which files are written at some places: what stood elsewhere has stayed, and where
nothing stood there is nothing, or a folder. -/
def Filled (t t' : FileTree) (written : List Place) : Prop :=
  ∀ place, t'.get? place = t.get? place ∨
    (t.get? place = none ∧ t'.get? place = some .folder) ∨
      (place ∈ written ∧ t.get? place ≠ some .folder ∧
        ∃ text, t'.get? place = some (.file (some text) 0))

theorem Filled.refl (t : FileTree) : t.Filled t [] :=
  fun _ => .inl rfl

theorem Extends.filled {t t' : FileTree} (h : t.Extends t') : t.Filled t' [] :=
  fun place => (h place).imp_right .inl

/-- A text is written where no folder stands. -/
theorem filled_put {t : FileTree} {place : Place} (h : t.get? place ≠ some .folder)
    (text : String) : t.Filled (t.put place (.file (some text) 0)) [place] := by
  intro other
  by_cases hother : other = place
  · subst hother
    refine .inr (.inr ⟨List.mem_singleton_self _, h, text, get?_put_self ?_⟩)
    rintro rfl
    exact h rfl
  · exact .inl (get?_put_of_ne hother)

namespace Filled

variable {t t' t'' : FileTree} {written written' : List Place} (h : t.Filled t' written)
include h

theorem trans (h' : t'.Filled t'' written') : t.Filled t'' (written ++ written') := by
  intro place
  rcases h' place with hsame | ⟨hnone, hfolder⟩ | ⟨hplace, hnot, hfile⟩
  · rw [hsame]
    rcases h place with hsame | hnew | ⟨hplace, hnot, hfile⟩
    · exact .inl hsame
    · exact .inr (.inl hnew)
    · exact .inr (.inr ⟨List.mem_append_left _ hplace, hnot, hfile⟩)
  · rcases h place with hsame | ⟨-, hfolder'⟩ | ⟨-, -, text, hfile⟩
    · exact .inr (.inl ⟨hsame.symm.trans hnone, hfolder⟩)
    · rw [hnone] at hfolder'
      cases hfolder'
    · rw [hnone] at hfile
      cases hfile
  · refine .inr (.inr ⟨List.mem_append_right _ hplace, fun hold => ?_, hfile⟩)
    rcases h place with hsame | ⟨hnone, -⟩ | ⟨-, hnot', -⟩
    · exact hnot (hsame.trans hold)
    · rw [hold] at hnone
      cases hnone
    · exact hnot' hold

theorem folder {place : Place} (he : t.get? place = some .folder) :
    t'.get? place = some .folder := by
  rcases h place with hsame | ⟨hnone, -⟩ | ⟨-, hnot, -⟩
  · rw [hsame, he]
  · rw [he] at hnone
    cases hnone
  · exact absurd he hnot

theorem file {place : Place} {old : Option String} {time : Nat}
    (he : t.get? place = some (.file old time)) :
    ∃ new time', t'.get? place = some (.file new time') := by
  rcases h place with hsame | ⟨hnone, -⟩ | ⟨-, -, text, hfile⟩
  · exact ⟨old, time, by rw [hsame, he]⟩
  · rw [he] at hnone
    cases hnone
  · exact ⟨_, _, hfile⟩

theorem stands {place : Place} (he : t.get? place ≠ none) : t'.get? place ≠ none := by
  obtain ⟨e, he⟩ := Option.ne_none_iff_exists'.mp he
  cases e with
  | folder =>
      rw [h.folder he]
      exact Option.some_ne_none _
  | file old time =>
      obtain ⟨new, time', hnew⟩ := h.file he
      rw [hnew]
      exact Option.some_ne_none _

theorem reach {steps : List Step} {here : Place} (hreach : t.reach steps = some here) :
    t'.reach steps = some here :=
  reach_of_folders (fun _ => h.folder) hreach

theorem isFolder {p : Path} (hp : t.isFolder p = true) : t'.isFolder p = true := by
  obtain ⟨place, hreach, hfolder⟩ := entry?_folder_iff.mp (isFolder_iff.mp hp)
  exact isFolder_iff.mpr (entry?_folder_iff.mpr ⟨place, h.reach hreach, h.folder hfolder⟩)

/-- A path that was anchored stays so. -/
theorem anchored {p : Path} (hp : t.Anchored p) : t'.Anchored p := by
  refine ⟨hp.absolute, fun {here rest} hstop hnone hparent => ?_⟩
  obtain ⟨steps, hsplit, hreach⟩ := hstop.split
  have hnone' : t.get? here = none := by
    by_contra hstands
    exact h.stands hstands hnone
  rcases reach_or_stop t hreach with hold | ⟨front, back, rfl, hback, mid, hmid, hfolder⟩
  · refine hp.noParent ⟨⟨steps, hsplit, hold⟩, fun he => ?_⟩ hnone' hparent
    rw [hnone'] at he
    cases he
  · cases hget : t.get? mid with
    | none =>
        rw [List.append_assoc] at hsplit
        exact hp.noParent ⟨⟨front, hsplit, hmid⟩, hfolder⟩ hget (List.mem_append_right _ hparent)
    | some e =>
        -- A file that was in the way is still there.
        cases e with
        | folder => exact hfolder hget
        | file old time =>
            obtain ⟨step, more, rfl⟩ := List.exists_cons_of_ne_nil hback
            rw [reach_append (h.reach hmid)] at hreach
            obtain ⟨new, time', hnew⟩ := h.file hget
            rw [folder_of_walkSteps hreach] at hnew
            cases hnew

/-- A path to a folder led to that folder before, or found nothing. -/
theorem isFolder_or_missing {p : Path} (hp : t'.isFolder p = true) :
    t.isFolder p = true ∨ t.entry? p = .error .notFound := by
  obtain ⟨place, hreach, hfolder⟩ := entry?_folder_iff.mp (isFolder_iff.mp hp)
  have habsolute : ∃ steps, p.components = .root :: steps := by
    unfold FileTree.reach at hreach
    split at hreach
    · next steps hsteps => exact ⟨steps, hsteps⟩
    · cases hreach
  have hmissing : ∀ {front back : List Step} {mid : Place}, p.components = front ++ back →
      t.reach front = some mid → t.get? mid = none → t.entry? p = .error .notFound := by
    intro front back mid hsplit hmid hnone
    refine (missing_iff habsolute).mpr ⟨mid, back, ⟨⟨front, hsplit, hmid⟩, ?_⟩, hnone⟩
    rw [hnone]
    exact fun he => nomatch he
  rcases reach_or_stop t hreach with hold | ⟨front, back, hsplit, hback, mid, hmid, hnot⟩
  · cases hget : t.get? place with
    | none => exact .inr (hmissing (List.append_nil _).symm hold hget)
    | some e =>
        cases e with
        | folder => exact .inl (isFolder_iff.mpr (entry?_folder_iff.mpr ⟨place, hold, hget⟩))
        | file old time =>
            obtain ⟨new, time', hnew⟩ := h.file hget
            rw [hfolder] at hnew
            cases hnew
  · cases hget : t.get? mid with
    | none => exact .inr (hmissing hsplit hmid hget)
    | some e =>
        cases e with
        | folder => exact absurd hget hnot
        | file old time =>
            obtain ⟨step, more, rfl⟩ := List.exists_cons_of_ne_nil hback
            obtain ⟨new, time', hnew⟩ := h.file hget
            rw [hsplit, reach_append (h.reach hmid)] at hreach
            rw [folder_of_walkSteps hreach] at hnew
            cases hnew

/-- Where nothing was found there is a folder, or still nothing, if no file is in the way. -/
theorem folder_or_missing (ht : t.Closed) {p : Path} (hp : t.Anchored p)
    (hmissing : t.entry? p = .error .notFound) (hclear : ∀ place ∈ written, ¬place <+: p.place) :
    t'.isFolder p = true ∨ t'.entry? p = .error .notFound := by
  obtain ⟨stop, rest, hstop, hnothing⟩ := (missing_iff hp.absolute).mp hmissing
  obtain ⟨steps, here, name, names, hsplit, hreach, hhere, hnone⟩ := hp.vacant ht hstop hnothing
  have hplace := place_of_reach hsplit hreach
  have hfree : ∀ front, front <+: name :: names → ∀ text time,
      t'.get? (here ++ front) ≠ some (.file text time) := by
    intro front hfront text time hfile
    cases front with
    | nil =>
        rw [List.append_nil, h.folder hhere] at hfile
        cases hfile
    | cons first inner =>
        obtain ⟨rfl, -⟩ := List.cons_prefix_cons.mp hfront
        have hbelow : here ++ [first] <+: here ++ first :: inner := by simp
        have hold := ht.nothing_below hnone hbelow
        rcases h (here ++ first :: inner) with hsame | ⟨-, hfolder⟩ | ⟨hwritten, -⟩
        · rw [hsame, hold] at hfile
          cases hfile
        · rw [hfolder] at hfile
          cases hfile
        · refine hclear _ hwritten ?_
          rw [hplace]
          exact (List.prefix_append_right_inj here).mpr hfront
  rcases walkSteps_names_or_stop (h.folder hhere) hfree with
    ⟨hwalk, hfolder⟩ | ⟨front, back, hfront, hwalk, hstops⟩
  · refine .inl (isFolder_iff.mpr (entry?_folder_iff.mpr ⟨_, ?_, hfolder⟩))
    rw [hsplit, reach_append (h.reach hreach), hwalk]
  · refine .inr ((missing_iff hp.absolute).mpr ⟨_, back.map .name,
      ⟨⟨steps ++ front.map .name, ?_, ?_⟩, ?_⟩, hstops⟩)
    · rw [hsplit, hfront, List.map_append, List.append_assoc]
    · rw [reach_append (h.reach hreach), hwalk]
    · rw [hstops]
      exact fun he => nomatch he

end Filled

end FileTree

end ComponentAtlas
