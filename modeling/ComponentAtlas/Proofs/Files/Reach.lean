import ComponentAtlas.Files.Tree
import ComponentAtlas.Proofs.Path.Folders

/-!
# Where components lead

A path leads to a place by its components: pieces that name nothing only ask for a folder to stay
in, and every further step asks for that folder too. A file can therefore be found under each
spelling that ends with its name.
-/

namespace ComponentAtlas

open ComponentAtlas.Text

namespace Path

/-- The place behind a step, whatever stands there. -/
def follow (here : Place) : Step → Place
  | .name s => here ++ [s]
  | .parent => here.dropLast
  | .root | .here => here

/-- The place that a path names, whatever stands on the way. -/
def place (p : Path) : Place :=
  p.components.foldl follow []

theorem place_congr {p q : Path} (h : p.components = q.components) : p.place = q.place := by
  rw [place, place, h]

theorem foldl_follow_names (here : Place) (names : List String) :
    (names.map .name).foldl follow here = here ++ names := by
  induction names generalizing here with
  | nil => simp
  | cons name rest ih =>
      rw [List.map_cons, List.foldl_cons, ih]
      simp [follow]

theorem place_of_components {p : Path} {steps : List Step} {names : List String}
    (h : p.components = steps ++ names.map .name) :
    p.place = steps.foldl follow [] ++ names := by
  rw [place, h, List.foldl_append, foldl_follow_names]

end Path

namespace FileTree

/-- The component of a piece. -/
def stepOf? (piece : String) : Option Step :=
  Step.ofPiece? piece.toList

/-- The place where components lead from a place. -/
def walkSteps (t : FileTree) : Place → List Step → Option Place
  | here, [] => some here
  | here, step :: rest =>
      if t.get? here = some .folder then
        match step with
        | .name s => walkSteps t (here ++ [s]) rest
        | .parent => walkSteps t here.dropLast rest
        | .root | .here => none
      else none

/-- The place where the components of an absolute path lead. -/
def reach (t : FileTree) : List Step → Option Place
  | .root :: rest => t.walkSteps [] rest
  | _ => none

theorem stepOf?_cases (piece : String) :
    (stepOf? piece = none ∧ (piece = "" ∨ piece = ".")) ∨
      (stepOf? piece = some .parent ∧ ¬(piece = "" ∨ piece = ".") ∧ piece = "..") ∨
      (stepOf? piece = some (.name piece) ∧ ¬(piece = "" ∨ piece = ".") ∧ piece ≠ "..") := by
  have hdot : piece.toList = ['.'] ↔ piece = "." := by
    rw [← String.toList_inj]
    rfl
  have hdots : piece.toList = ['.', '.'] ↔ piece = ".." := by
    rw [← String.toList_inj]
    rfl
  have hidle : (piece.toList = [] ∨ piece.toList = ['.']) ↔ (piece = "" ∨ piece = ".") := by
    rw [hdot, String.toList_eq_nil_iff]
  unfold stepOf? Step.ofPiece?
  by_cases h : piece = "" ∨ piece = "."
  · exact .inl ⟨if_pos (hidle.mpr h), h⟩
  · rw [if_neg (hidle.not.mpr h)]
    by_cases hup : piece = ".."
    · exact .inr (.inl ⟨if_pos (hdots.mpr hup), h, hup⟩)
    · refine .inr (.inr ⟨?_, h, hup⟩)
      rw [if_neg (hdots.not.mpr hup), String.ofList_toList]

section Walk

variable {t : FileTree}

theorem walk_idle {here : Place} {piece : String} (h : piece = "" ∨ piece = ".")
    (rest : List String) (hfolder : t.get? here = some .folder) :
    t.walk here (piece :: rest) = t.walk here rest := by
  simp only [walk, hfolder, h, if_true]

theorem folder_of_walk {here place : Place} {piece : String} {rest : List String}
    (h : t.walk here (piece :: rest) = .ok place) : t.get? here = some .folder := by
  unfold walk at h
  split at h
  · cases h
  · cases h
  · assumption

theorem folder_of_walkSteps {here place : Place} {step : Step} {rest : List Step}
    (h : t.walkSteps here (step :: rest) = some place) : t.get? here = some .folder := by
  unfold walkSteps at h
  split at h
  · assumption
  · cases h

/-- A walk over pieces is a walk over what they name. -/
theorem walkSteps_of_walk {here place : Place} {pieces : List String}
    (h : t.walk here pieces = .ok place) :
    t.walkSteps here (pieces.filterMap stepOf?) = some place := by
  induction pieces generalizing here with
  | nil =>
      cases h
      rfl
  | cons piece rest ih =>
      have hfolder := folder_of_walk h
      rw [walk, hfolder] at h
      rcases stepOf?_cases piece with ⟨hnone, hp⟩ | ⟨hup, hp, hdots⟩ | ⟨hname, hp, hdots⟩
      · rw [List.filterMap_cons_none hnone]
        exact ih (by simpa only [if_pos hp] using h)
      · rw [List.filterMap_cons_some hup, walkSteps, if_pos hfolder]
        exact ih (by simpa only [if_neg hp, if_pos hdots] using h)
      · rw [List.filterMap_cons_some hname, walkSteps, if_pos hfolder]
        exact ih (by simpa only [if_neg hp, if_neg hdots] using h)

/-- Pieces lead where they name, if the last of them is a name or a folder is found. -/
theorem walk_of_walkSteps {here place : Place} {pieces : List String}
    (h : t.walkSteps here (pieces.filterMap stepOf?) = some place)
    (hend : t.get? place = some .folder ∨
      ∀ last, pieces.getLast? = some last → (stepOf? last).isSome) :
    t.walk here pieces = .ok place := by
  induction pieces generalizing here with
  | nil =>
      cases h
      rfl
  | cons piece rest ih =>
      have hrest : t.get? place = some .folder ∨
          ∀ last, rest.getLast? = some last → (stepOf? last).isSome := by
        refine hend.imp id fun hlast last hl => hlast last ?_
        rw [List.getLast?_cons, hl]
        rfl
      rcases stepOf?_cases piece with ⟨hnone, hp⟩ | ⟨hup, hp, hdots⟩ | ⟨hname, hp, hdots⟩
      · rw [List.filterMap_cons_none hnone] at h
        -- A piece that names nothing asks for a folder: the next step does so too, and at the
        -- end it is there.
        have hfolder : t.get? here = some .folder := by
          cases hsteps : rest.filterMap stepOf? with
          | cons step more => exact folder_of_walkSteps (hsteps ▸ h)
          | nil =>
              rw [hsteps] at h
              obtain rfl : here = place := Option.some.inj h
              rcases hend with hfolder | hlast
              · exact hfolder
              · have hidle : ∀ p ∈ piece :: rest, stepOf? p = none := by
                  intro p hmem
                  rcases List.mem_cons.mp hmem with rfl | hmem
                  · exact hnone
                  · exact List.filterMap_eq_nil_iff.mp hsteps p hmem
                obtain ⟨last, hl⟩ := Option.isSome_iff_exists.mp
                  (List.getLast?_isSome.mpr (List.cons_ne_nil piece rest))
                have hsome := hlast last hl
                rw [hidle last (List.mem_of_getLast? hl)] at hsome
                cases hsome
        rw [walk_idle hp rest hfolder]
        exact ih h hrest
      · rw [List.filterMap_cons_some hup] at h
        have hfolder := folder_of_walkSteps h
        rw [walkSteps, if_pos hfolder] at h
        simp only [walk, hfolder, if_neg hp, if_pos hdots]
        exact ih h hrest
      · rw [List.filterMap_cons_some hname] at h
        have hfolder := folder_of_walkSteps h
        rw [walkSteps, if_pos hfolder] at h
        simp only [walk, hfolder, if_neg hp, if_neg hdots]
        exact ih h hrest

theorem walkSteps_append {here : Place} (front back : List Step) :
    t.walkSteps here (front ++ back) = (t.walkSteps here front).bind fun place =>
      t.walkSteps place back := by
  induction front generalizing here with
  | nil => rfl
  | cons step rest ih =>
      simp only [List.cons_append, walkSteps]
      split
      · cases step with
        | root => rfl
        | here => rfl
        | parent => exact ih
        | name s => exact ih
      · rfl

end Walk

section Reach

variable {t : FileTree}

/-- The pieces of an absolute path stand behind its first slash. -/
theorem piecesOf?_eq_some {p : Path} {pieces : List String} :
    piecesOf? p = some pieces ↔
      pieces ≠ [] ∧ splitAt '/' p.text.toList = [] :: pieces.map String.toList := by
  unfold piecesOf?
  split
  · next second rest hsplit =>
      rw [hsplit, List.cons.injEq]
      constructor
      · rintro ⟨⟩
        refine ⟨List.cons_ne_nil _ _, rfl, ?_⟩
        simp [Function.comp_def]
      · rintro ⟨-, -, hrest⟩
        rw [hrest]
        simp [Function.comp_def]
  · next hsplit =>
      refine ⟨fun h => (nomatch h), fun ⟨hne, h⟩ => ?_⟩
      obtain ⟨first, rest, rfl⟩ := List.exists_cons_of_ne_nil hne
      exact absurd h (hsplit first.toList (rest.map String.toList))

theorem components_of_piecesOf? {p : Path} {pieces : List String} (h : piecesOf? p = some pieces) :
    p.components = .root :: pieces.filterMap stepOf? := by
  obtain ⟨hne, hsplit⟩ := piecesOf?_eq_some.mp h
  rw [Path.components_eq_ofPieces, hsplit]
  simp only [Path.ofPieces, if_true, List.map_eq_nil_iff, hne, if_false, List.filterMap_map]
  rfl

theorem piecesOf?_of_components {p : Path} {steps : List Step}
    (h : p.components = .root :: steps) :
    ∃ pieces, piecesOf? p = some pieces ∧ pieces.filterMap stepOf? = steps := by
  obtain ⟨first, rest, hsplit⟩ :=
    List.exists_cons_of_ne_nil (splitAt_ne_nil '/' p.text.toList)
  have hpieces : first = [] ∧ rest ≠ [] := by
    rw [Path.components_eq_ofPieces, hsplit] at h
    simp only [Path.ofPieces] at h
    split at h
    · next hfirst =>
        refine ⟨hfirst, fun hrest => ?_⟩
        rw [if_pos hrest] at h
        cases h
    · split at h
      · cases h
      · next hdot hnil =>
          exfalso
          split at h
          · next c hc =>
              obtain ⟨rfl, -⟩ := List.cons.inj h
              unfold Step.ofPiece? at hc
              split at hc
              · cases hc
              · split at hc <;> cases hc
          · next hidle =>
              unfold Step.ofPiece? at hidle
              split at hidle
              · next hor => exact hor.elim hdot hnil
              · split at hidle <;> cases hidle
  obtain ⟨rfl, hrest⟩ := hpieces
  have hsome : piecesOf? p = some (rest.map String.ofList) :=
    piecesOf?_eq_some.mpr ⟨by simpa using hrest, by simp [hsplit, Function.comp_def]⟩
  refine ⟨_, hsome, ?_⟩
  have hcomponents := components_of_piecesOf? hsome
  rw [h] at hcomponents
  exact (List.cons.inj hcomponents).2.symm

/-- The last piece of a joined name is that name. -/
theorem getLast?_piecesOf?_join {p : Path} {name : String} (hname : PlainName name)
    {pieces : List String} (h : piecesOf? (p.join name) = some pieces) :
    pieces.getLast? = some name := by
  obtain ⟨hne, hsplit⟩ := piecesOf?_eq_some.mp h
  have hlast : (splitAt '/' (p.join name).text.toList).getLast? = some name.toList := by
    have hone := splitAt_of_not_mem hname.noSlash
    rw [Path.text_join hname]
    split
    · next hend =>
        rcases hend with hnil | hslash
        · rw [hnil, List.nil_append, hone]
          rfl
        · obtain ⟨front, hfront⟩ := List.getLast?_eq_some_iff.mp hslash
          rw [hfront, List.append_assoc, List.singleton_append, splitAt_append, hone,
            List.getLast?_concat]
    · rw [splitAt_append, hone, List.getLast?_concat]
  rw [hsplit, List.getLast?_cons, List.getLast?_map] at hlast
  cases hpieces : pieces.getLast? with
  | none => exact absurd (List.getLast?_eq_none_iff.mp hpieces) hne
  | some last =>
      rw [hpieces] at hlast
      have hchars : last.toList = name.toList := by simpa using hlast
      rw [String.toList_inj.mp hchars]

/-- A path leads where its components lead. -/
theorem reach_of_resolve {p : Path} {place : Place} (h : t.resolve p = .ok place) :
    t.reach p.components = some place := by
  unfold resolve at h
  split at h
  · cases h
  · next pieces hpieces =>
      rw [components_of_piecesOf? hpieces]
      exact walkSteps_of_walk h

theorem resolve_of_reach {p : Path} {place : Place} (h : t.reach p.components = some place)
    (hfolder : t.get? place = some .folder) : t.resolve p = .ok place := by
  unfold reach at h
  split at h
  · next steps hsteps =>
      obtain ⟨pieces, hpieces, rfl⟩ := piecesOf?_of_components hsteps
      rw [resolve, hpieces]
      exact walk_of_walkSteps h (.inl hfolder)
  · cases h

theorem resolve_join {p : Path} {name : String} (hname : PlainName name) {place : Place}
    (h : t.reach (p.join name).components = some place) : t.resolve (p.join name) = .ok place := by
  unfold reach at h
  split at h
  · next steps hsteps =>
      obtain ⟨pieces, hpieces, rfl⟩ := piecesOf?_of_components hsteps
      rw [resolve, hpieces]
      refine walk_of_walkSteps h (.inr fun last hlast => ?_)
      rw [getLast?_piecesOf?_join hname hpieces] at hlast
      obtain rfl := Option.some.inj hlast
      rw [stepOf?, hname.isName]
      rfl
  · cases h

theorem walkSteps_eq {here place : Place} {steps : List Step}
    (h : t.walkSteps here steps = some place) : place = steps.foldl Path.follow here := by
  induction steps generalizing here with
  | nil => exact (Option.some.inj h).symm
  | cons step rest ih =>
      unfold walkSteps at h
      split at h
      · cases step with
        | root => cases h
        | here => cases h
        | parent => exact ih h
        | name s => exact ih h
      · cases h

/-- Components lead to the place that they name, if they lead anywhere. -/
theorem reach_eq {steps : List Step} {place : Place} (h : t.reach steps = some place) :
    place = steps.foldl Path.follow [] := by
  unfold reach at h
  split at h
  · next rest =>
      rw [List.foldl_cons]
      exact walkSteps_eq h
  · cases h

/-- A way leads on in every tree that has the same folders and perhaps more. -/
theorem walkSteps_of_folders {t' : FileTree}
    (h : ∀ place, t.get? place = some .folder → t'.get? place = some .folder)
    {here place : Place} {steps : List Step} (hwalk : t.walkSteps here steps = some place) :
    t'.walkSteps here steps = some place := by
  induction steps generalizing here with
  | nil => exact hwalk
  | cons step rest ih =>
      have hfolder := folder_of_walkSteps hwalk
      unfold walkSteps at hwalk ⊢
      rw [if_pos hfolder] at hwalk
      rw [if_pos (h here hfolder)]
      cases step with
      | root => cases hwalk
      | here => cases hwalk
      | parent => exact ih hwalk
      | name s => exact ih hwalk

theorem reach_of_folders {t' : FileTree}
    (h : ∀ place, t.get? place = some .folder → t'.get? place = some .folder)
    {steps : List Step} {place : Place} (hreach : t.reach steps = some place) :
    t'.reach steps = some place := by
  unfold reach at hreach ⊢
  split at hreach
  · exact walkSteps_of_folders h hreach
  · cases hreach

/-- A name leads on from the place of a folder. -/
theorem reach_concat (steps : List Step) (name : String) {place : Place} :
    t.reach (steps ++ [.name name]) = some place ↔
      ∃ outer, t.reach steps = some outer ∧ t.get? outer = some .folder ∧
        outer ++ [name] = place := by
  cases steps with
  | nil => simp [reach]
  | cons first rest =>
      cases first with
      | root =>
          rw [List.cons_append, reach, walkSteps_append]
          simp [reach, walkSteps, Option.bind_eq_some_iff]
      | here => simp [reach]
      | parent => simp [reach]
      | name s => simp [reach]

/-- What is found under a path stands where its components lead. -/
theorem entry?_reach {p : Path} {e : Entry} (h : t.entry? p = .ok e) :
    ∃ place, t.reach p.components = some place ∧ t.get? place = some e := by
  unfold entry? at h
  cases hplace : t.resolve p with
  | error cause =>
      rw [hplace] at h
      cases h
  | ok place =>
      refine ⟨place, reach_of_resolve hplace, ?_⟩
      simp only [hplace, bind, Except.bind] at h
      split at h
      · next hget =>
          cases h
          exact hget
      · cases h

/-- What is found under a path stands at the place that it names. -/
theorem get?_place {p : Path} {e : Entry} (h : t.entry? p = .ok e) : t.get? p.place = some e := by
  obtain ⟨place, hplace, he⟩ := entry?_reach h
  rw [reach_eq hplace] at he
  exact he

theorem entry?_of_resolve {p : Path} {place : Place} {e : Entry} (h : t.resolve p = .ok place)
    (he : t.get? place = some e) : t.entry? p = .ok e := by
  simp [ entry?, h, he, bind, Except.bind]

/-- A path leads to a folder when its components do. -/
theorem entry?_folder_iff {p : Path} :
    t.entry? p = .ok .folder ↔
      ∃ place, t.reach p.components = some place ∧ t.get? place = some .folder :=
  ⟨entry?_reach, fun ⟨_, hplace, he⟩ => entry?_of_resolve (resolve_of_reach hplace he) he⟩

/-- A path that ends with a joined name leads where its components lead. -/
theorem entry?_join_iff {p : Path} {name : String} (hname : PlainName name) {e : Entry} :
    t.entry? (p.join name) = .ok e ↔
      ∃ place, t.reach (p.join name).components = some place ∧ t.get? place = some e :=
  ⟨entry?_reach, fun ⟨_, hplace, he⟩ => entry?_of_resolve (resolve_join hname hplace) he⟩

/-- What is found under a name that is joined to a path stands below the folder of that path. -/
theorem entry?_join_reach {p : Path} {name : String} (hname : PlainName name) {e : Entry}
    (h : t.entry? (p.join name) = .ok e) :
    ∃ here, t.reach p.components = some here ∧ t.get? here = some .folder ∧
      t.get? (here ++ [name]) = some e := by
  obtain ⟨place, hplace, hget⟩ := entry?_reach h
  rw [Path.components_join hname, reach_concat] at hplace
  obtain ⟨here, hhere, hfolder, rfl⟩ := hplace
  exact ⟨here, hhere, hfolder, hget⟩

/-- An entry that is found under some spelling is found under one that ends with its name. -/
theorem entry?_join_of_same {p q : Path} {name : String} (hname : PlainName name)
    (hsame : q.components = (p.join name).components) {e : Entry} (h : t.entry? q = .ok e) :
    t.entry? (p.join name) = .ok e := by
  rw [entry?_join_iff hname, ← hsame]
  exact entry?_reach h

end Reach

section Names

variable {t : FileTree}

/-- Every name in the tree stands for itself in a path. -/
def WellNamed (t : FileTree) : Prop :=
  ∀ e ∈ t.entries, ∀ name ∈ e.1, PlainName name

instance (t : FileTree) : Decidable t.WellNamed :=
  inferInstanceAs (Decidable (∀ e ∈ t.entries, ∀ name ∈ e.1, PlainName name))

/-- The places in a folder are those one name below it. -/
theorem nameIn?_eq_some {folder place : Place} {name : String} :
    nameIn? folder place = some name ↔ place = folder ++ [name] := by
  unfold nameIn?
  constructor
  · intro h
    split at h
    · next last hlast =>
        split at h
        · next hfolder =>
            obtain ⟨rfl⟩ := h
            obtain ⟨front, hfront⟩ := List.getLast?_eq_some_iff.mp hlast
            rw [hfront, List.dropLast_concat] at hfolder
            rw [hfront, hfolder]
        · cases h
    · cases h
  · intro h
    simp [h]

theorem mem_namesAt {folder : Place} {name : String} :
    name ∈ t.namesAt folder ↔ ∃ e ∈ t.entries, e.1 = folder ++ [name] := by
  rw [namesAt, List.mem_mergeSort, List.mem_filterMap]
  exact exists_congr fun e => and_congr_right fun _ => nameIn?_eq_some

theorem mem_entries_of_get? {place : Place} {e : Entry} (hne : place ≠ [])
    (h : t.get? place = some e) : (place, e) ∈ t.entries := by
  rw [get?, if_neg hne, Option.map_eq_some_iff] at h
  obtain ⟨old, hfind, rfl⟩ := h
  have hplace : old.1 = place := by simpa using List.find?_some hfind
  exact hplace ▸ List.mem_of_find?_eq_some hfind

theorem mem_namesAt_of_get? {folder : Place} {name : String} {e : Entry}
    (h : t.get? (folder ++ [name]) = some e) : name ∈ t.namesAt folder :=
  mem_namesAt.mpr ⟨_, mem_entries_of_get? (by simp) h, rfl⟩

theorem WellNamed.plain {folder : Place} {name : String} (ht : t.WellNamed)
    (h : name ∈ t.namesAt folder) : PlainName name := by
  obtain ⟨e, he, hplace⟩ := mem_namesAt.mp h
  exact ht e he name (by simp [hplace])

/-- A path has children when its components lead to a folder. -/
theorem children_eq_ok {p : Path} {paths : List Path} :
    t.children p = .ok paths ↔
      ∃ place, t.reach p.components = some place ∧ t.get? place = some .folder ∧
        (t.namesAt place).map p.join = paths := by
  constructor
  · intro h
    unfold children at h
    cases hplace : t.resolve p with
    | error cause =>
        rw [hplace] at h
        cases h
    | ok place =>
        simp only [hplace, bind, Except.bind] at h
        split at h
        · cases h
        · cases h
        · next hfolder =>
            cases h
            exact ⟨place, reach_of_resolve hplace, hfolder, rfl⟩
  · rintro ⟨place, hplace, hfolder, rfl⟩
    simp [children, resolve_of_reach hplace hfolder, hfolder, bind, Except.bind]

theorem isFile_iff {p : Path} :
    t.isFile p = true ↔ ∃ text time, t.entry? p = .ok (.file text time) := by
  unfold isFile
  split
  · next text time h => simp [h]
  · next hne =>
      refine ⟨fun h => (nomatch h), fun ⟨text, time, h⟩ => ?_⟩
      exact absurd h (hne text time)

theorem holds_iff {p : Path} : t.holds p = true ↔ ∃ e, t.entry? p = .ok e := by
  unfold holds
  cases t.entry? p with
  | ok e => exact ⟨fun _ => ⟨e, rfl⟩, fun _ => rfl⟩
  | error cause => exact ⟨fun h => (nomatch h), fun ⟨_, he⟩ => nomatch he⟩

theorem isFolder_iff {p : Path} : t.isFolder p = true ↔ t.entry? p = .ok .folder := by
  unfold isFolder
  split
  · next h => simp [h]
  · next hne => exact ⟨fun h => (nomatch h), fun h => absurd h hne⟩

/-- A name that is joined to a folder names a folder when one stands below its place. -/
theorem isFolder_join_iff {p : Path} {place : Place} (hplace : t.reach p.components = some place)
    (hfolder : t.get? place = some .folder) {name : String} (hname : PlainName name) :
    t.isFolder (p.join name) = true ↔ t.get? (place ++ [name]) = some .folder := by
  rw [isFolder_iff, entry?_folder_iff, Path.components_join hname]
  constructor
  · rintro ⟨_, hinner, hget⟩
    obtain ⟨outer, houter, -, rfl⟩ := (reach_concat _ _).mp hinner
    obtain rfl := Option.some.inj (hplace.symm.trans houter)
    exact hget
  · intro hget
    exact ⟨place ++ [name], (reach_concat _ _).mpr ⟨place, hplace, hfolder, rfl⟩, hget⟩

/-- Where something stands inside, there is a folder. -/
theorem isFolder_of_join {p : Path} {name : String} (hname : PlainName name) {e : Entry}
    (h : t.entry? (p.join name) = .ok e) : t.isFolder p = true := by
  obtain ⟨here, hhere, hfolder, -⟩ := entry?_join_reach hname h
  exact isFolder_iff.mpr (entry?_folder_iff.mpr ⟨here, hhere, hfolder⟩)

theorem modifiedAt?_of_file {p : Path} {text : Option String} {time : Nat}
    (h : t.entry? p = .ok (.file text time)) : t.modifiedAt? p = some time := by
  simp [modifiedAt?, h]

theorem read_of_file {p : Path} {text : Option String} {time : Nat}
    (h : t.entry? p = .ok (.file text time)) : (t.read p).toOption = text := by
  cases text <;> simp [read, h, bind, Except.bind, Except.toOption]

theorem file_of_read {p : Path} {source : String} (h : (t.read p).toOption = some source) :
    ∃ time, t.entry? p = .ok (.file (some source) time) := by
  unfold read at h
  cases hentry : t.entry? p with
  | error cause =>
      rw [hentry] at h
      cases h
  | ok e =>
      rw [hentry] at h
      cases e with
      | folder => cases h
      | file text time =>
          cases text with
          | none => cases h
          | some text =>
              cases h
              exact ⟨time, rfl⟩

end Names

end FileTree

end ComponentAtlas
