import ComponentAtlas.Proofs.Indexing.Snapshots

/-!
# What the search looks at

The search for namespace roots and components looks at folders and at files with certain names.
Saving a snapshot in a folder that stands changes neither, so that the search finds the same
before and after.
-/

namespace ComponentAtlas

namespace FileTree

/-- Trees that have the same folders. -/
def SameFolders (t t' : FileTree) : Prop :=
  ∀ place, t'.get? place = some .folder ↔ t.get? place = some .folder

section Walk

variable {t t' : FileTree}

/-- What is found under a path stands at the place where it leads. -/
theorem entry?_eq_ok {p : Path} {e : Entry} :
    t.entry? p = .ok e ↔ t.resolve p = .ok p.place ∧ t.get? p.place = some e := by
  constructor
  · intro h
    refine ⟨?_, get?_place h⟩
    cases hplace : t.resolve p with
    | error cause =>
        rw [ entry?, hplace] at h
        cases h
    | ok place => rw [reach_eq (reach_of_resolve hplace), Path.place]
  · rintro ⟨hplace, he⟩
    exact entry?_of_resolve hplace he

theorem walk_cons_eq_ok {here place : Place} {piece : String} {rest : List String} :
    t.walk here (piece :: rest) = .ok place ↔ t.get? here = some .folder ∧
      (if piece = "" ∨ piece = "." then t.walk here rest
        else if piece = ".." then t.walk here.dropLast rest
        else t.walk (here ++ [piece]) rest) = .ok place := by
  constructor
  · intro h
    have hfolder := folder_of_walk h
    refine ⟨hfolder, ?_⟩
    rw [← h, walk, hfolder]
  · rintro ⟨hfolder, h⟩
    rw [← h, walk, hfolder]

namespace SameFolders

variable (h : SameFolders t t')
include h

theorem walk {here place : Place} {pieces : List String} :
    t'.walk here pieces = .ok place ↔ t.walk here pieces = .ok place := by
  induction pieces generalizing here with
  | nil => rfl
  | cons piece rest ih =>
      rw [walk_cons_eq_ok, walk_cons_eq_ok, h here]
      refine and_congr_right fun _ => ?_
      split
      · exact ih
      · split
        · exact ih
        · exact ih

theorem resolve {p : Path} {place : Place} :
    t'.resolve p = .ok place ↔ t.resolve p = .ok place := by
  unfold FileTree.resolve
  split
  · rfl
  · exact h.walk

/-- A path finds the same in both trees if the same stands at its place. -/
theorem entry? {p : Path} (hget : t'.get? p.place = t.get? p.place) {e : Entry} :
    t'.entry? p = .ok e ↔ t.entry? p = .ok e := by
  rw [entry?_eq_ok, entry?_eq_ok, h.resolve, hget]

theorem walkSteps {here : Place} {steps : List Step} :
    t'.walkSteps here steps = t.walkSteps here steps := by
  induction steps generalizing here with
  | nil => rfl
  | cons step rest ih =>
      simp only [FileTree.walkSteps, h here]
      cases step with
      | root => rfl
      | here => rfl
      | parent => simp only [ih]
      | name s => simp only [ih]

theorem reach {steps : List Step} : t'.reach steps = t.reach steps := by
  unfold FileTree.reach
  split
  · exact h.walkSteps
  · rfl

theorem isFolder (p : Path) : t'.isFolder p = t.isFolder p := by
  rw [Bool.eq_iff_iff, isFolder_iff, isFolder_iff, entry?_eq_ok, entry?_eq_ok, h.resolve, h]

end SameFolders

end Walk

section Put

variable {t : FileTree} {place : Place} {text : Option String} {time : Nat}

theorem filter_mergeSort (names : List String) (keep : String → Bool) :
    (names.mergeSort fun a b => a ≤ b).filter keep =
      (names.filter keep).mergeSort fun a b => a ≤ b := by
  have hsorted : ∀ l : List String, (l.mergeSort fun a b => a ≤ b).Pairwise (· ≤ ·) := by
    intro l
    have hpairs := @List.pairwise_mergeSort String (fun a b => a ≤ b)
      (fun a b c hab hbc => by
        simpa using String.le_trans (by simpa using hab) (by simpa using hbc))
      (fun a b => by simpa using String.le_total a b) l
    exact hpairs.imp fun h => by simpa using h
  refine List.Perm.eq_of_pairwise (fun a b _ _ hab hba => String.le_antisymm hab hba)
    ((hsorted names).filter _) (hsorted _) ?_
  exact ((List.mergeSort_perm names _).filter keep).trans (List.mergeSort_perm _ _).symm

/-- A new entry changes the names in a folder by at most its own name. -/
theorem filter_namesAt_put {e : Entry} {here : Place} {keep : String → Bool}
    (hkeep : ∀ name, here ++ [name] = place → keep name = false) :
    ((t.put place e).namesAt here).filter keep = (t.namesAt here).filter keep := by
  let kept (entry : Place × Entry) : Option String := (nameIn? here entry.1).filter keep
  have hdropped : ∀ entry, entry.1 = place → kept entry = none := by
    intro entry hentry
    refine Option.filter_eq_none_iff.mpr fun name hname => ?_
    rw [hkeep name ((nameIn?_eq_some.mp hname).symm.trans hentry)]
    exact Bool.false_ne_true
  rw [namesAt, namesAt, filter_mergeSort, filter_mergeSort, List.filter_filterMap,
    List.filter_filterMap]
  congr 1
  change List.filterMap kept ((place, e) :: t.entries.filter fun old => old.1 != place) =
    List.filterMap kept t.entries
  rw [List.filterMap_cons_none (hdropped (place, e) rfl)]
  induction t.entries with
  | nil => rfl
  | cons old rest ih =>
      by_cases hold : old.1 = place
      · rw [List.filter_cons_of_neg (by simpa using hold), ih,
          List.filterMap_cons_none (hdropped old hold)]
      · rw [List.filter_cons_of_pos (by simpa using hold), List.filterMap_cons,
          List.filterMap_cons, ih]

/-- A file in place of no folder leaves the folders. -/
theorem sameFolders_put (h : t.get? place ≠ some .folder) :
    SameFolders t (t.put place (.file text time)) := by
  intro other
  by_cases hother : other = place
  · subst hother
    have hne : other ≠ [] := by
      rintro rfl
      exact h rfl
    rw [get?_put_self hne]
    exact ⟨fun hfile => (nomatch hfile), fun hfolder => absurd hfolder h⟩
  · rw [get?_put_of_ne hother]

/-- A file in place of no folder is no subfolder, and nor was what stood there. -/
theorem subfolders_put {outer : Place} {name : String} (hname : PlainName name)
    (hplace : place = outer ++ [name]) (h : t.get? place ≠ some .folder) (e : Exclusion)
    (folder : Path) :
    (NamespaceRoots.subfolders (t.put place (.file text time)) e folder).toOption =
      (NamespaceRoots.subfolders t e folder).toOption := by
  have hsame : SameFolders t (t.put place (.file text time)) := sameFolders_put h
  refine Option.ext fun inner => ?_
  rw [Candidate.subfolders_eq_some, Candidate.subfolders_eq_some, hsame.reach]
  refine exists_congr fun here => and_congr_right fun hhere => and_congr (hsame here) ?_
  have hkeep : ∀ other, here ++ [other] = place →
      (t.isFolder (folder.join other) && !e.excludes (folder.join other)) = false := by
    intro other hother
    obtain ⟨-, hlast⟩ := List.append_inj' (hother.trans hplace) rfl
    obtain rfl : other = name := List.head_eq_of_cons_eq hlast
    rw [Bool.and_eq_false_imp]
    intro hfolder
    obtain ⟨outside, houtside, -, hget⟩ := entry?_join_reach hname (isFolder_iff.mp hfolder)
    obtain rfl : here = outside := Option.some.inj (hhere.symm.trans houtside)
    exact absurd (hother ▸ hget) h
  have hnames := filter_namesAt_put (t := t) (e := .file text time) hkeep
  simp only [List.filter_map, Function.comp_def, hsame.isFolder, hnames]

end Put

end FileTree

namespace Snapshot

/-- The name of the file of a snapshot. -/
def fileName : String := "custom-components.json"

/-- A snapshot does not have the name of an entry file. -/
theorem fileName_ne_entry {d : Dialect} {ext : String} (hext : ext ∈ d.entryExtensions)
    (name : String) : name ++ "." ++ ext ≠ fileName := by
  have hlast : ext.toList.getLast? ≠ some 'n' ∧ ext.toList ≠ [] := by
    revert ext
    cases d <;> decide
  intro heq
  have hends := congrArg (fun s : String => s.toList.getLast?) heq
  simp only [String.toList_append, List.getLast?_append_of_ne_nil _ hlast.2] at hends
  exact hlast.1 (hends.trans (by decide))

end Snapshot

/-- The file of a container with an extension ends with its name. -/
theorem Path.fileName?_entryIn {d : Dialect} {folder : Path} {name ext : String}
    (hname : folder.fileName? = some name) (hext : ext ∈ d.entryExtensions) :
    (folder.join (name ++ "." ++ ext)).fileName? = some (name ++ "." ++ ext) := by
  obtain ⟨hne, hslash, -⟩ := d.entryExtensions_plain ext hext
  obtain ⟨steps, hsteps⟩ := components_of_fileName? hname
  have hplain : PlainName name := plainName_of_mem_components (p := folder) (by simp [hsteps])
  exact fileName?_of_components (components_join (hplain.withExtension hne hslash))

/-- An entry file does not have the name of a snapshot. -/
theorem Path.fileName?_of_isEntry {d : Dialect} {p : Path}
    (h : p.isEntry d.entryExtensions = true) :
    ∃ name, p.fileName? = some name ∧ name ≠ Snapshot.fileName := by
  obtain ⟨steps, name, ext, hext, -, hsteps⟩ := Path.isEntry_iff.mp h
  refine ⟨name ++ "." ++ ext, ?_, Snapshot.fileName_ne_entry hext name⟩
  rw [Path.fileName?, hsteps]
  simp

/-- Trees that differ at most in the files of snapshots, and in nothing that the search looks at. -/
structure SameSources (t t' : FileTree) : Prop where
  folders : t.SameFolders t'
  files : ∀ (outer : Place) (name : String), name ≠ Snapshot.fileName →
    t'.get? (outer ++ [name]) = t.get? (outer ++ [name])
  subfolders : ∀ e folder, (NamespaceRoots.subfolders t' e folder).toOption =
    (NamespaceRoots.subfolders t e folder).toOption

namespace SameSources

theorem refl (t : FileTree) : SameSources t t :=
  ⟨fun _ => .rfl, fun _ _ _ => rfl, fun _ _ => rfl⟩

theorem trans {t t' t'' : FileTree} (h : SameSources t t') (h' : SameSources t' t'') :
    SameSources t t'' where
  folders place := (h'.folders place).trans (h.folders place)
  files outer name hname := (h'.files outer name hname).trans (h.files outer name hname)
  subfolders e folder := (h'.subfolders e folder).trans (h.subfolders e folder)

/-- Saving in a folder that stands only writes the file of the snapshot. -/
theorem of_save {t t' : FileTree} {folder : Path} {d : Dialect} {tags : List Tag}
    (hfolder : t.isFolder ((folder.join "indexes").join d.word) = true)
    (h : Snapshot.save t folder d tags = .ok t') : SameSources t t' := by
  have hname : PlainName Snapshot.fileName := by decide
  have hplace : (Snapshot.file folder d).place =
      ((folder.join "indexes").join d.word).place ++ [Snapshot.fileName] :=
    Path.place_join hname
  obtain ⟨parent, hparent, hsteps⟩ :=
    Path.components_parent? (p := Snapshot.file folder d) (Path.components_join hname)
  have hensure : Snapshot.ensureFolder t parent = .ok t := by
    have hstands : t.entry? parent = .ok .folder := by
      rw [FileTree.entry?_folder_iff, hsteps, ← FileTree.entry?_folder_iff,
        ← FileTree.isFolder_iff]
      exact hfolder
    rw [Snapshot.ensureFolder, FileTree.holds, hstands]
    rfl
  obtain ⟨rfl, hnot⟩ : t' = t.put (Snapshot.file folder d).place
      (.file (some (Snapshot.write tags)) 0) ∧
        t.get? (Snapshot.file folder d).place ≠ some .folder := by
    unfold Snapshot.save at h
    dsimp only at h
    rw [hparent] at h
    dsimp only at h
    rw [hensure] at h
    exact FileTree.write_eq_ok h
  refine ⟨FileTree.sameFolders_put hnot, fun outer name hother => ?_,
    FileTree.subfolders_put hname hplace hnot⟩
  refine FileTree.get?_put_of_ne fun heq => hother ?_
  exact List.head_eq_of_cons_eq (List.append_inj' (heq.trans hplace) rfl).2

section Lookups

variable {t t' : FileTree} (h : SameSources t t')
include h

/-- A path that ends with the name of no snapshot finds the same in both trees, or nothing. -/
theorem entry? {p : Path} {name : String} (hname : p.fileName? = some name)
    (hother : name ≠ Snapshot.fileName) :
    (∃ e, t.entry? p = .ok e ∧ t'.entry? p = .ok e) ∨
      ∃ cause cause', t.entry? p = .error cause ∧ t'.entry? p = .error cause' := by
  obtain ⟨steps, hsteps⟩ := Path.components_of_fileName? hname
  have hplace : p.place = steps.foldl Path.follow [] ++ [name] := by
    have hnames : p.components = steps ++ [name].map .name := hsteps
    exact Path.place_of_components hnames
  have hget : t'.get? p.place = t.get? p.place := by
    rw [hplace]
    exact h.files _ name hother
  cases hentry : t.entry? p with
  | ok e => exact .inl ⟨e, rfl, (h.folders.entry? hget).mpr hentry⟩
  | error cause =>
      cases hentry' : t'.entry? p with
      | ok e =>
          rw [(h.folders.entry? hget).mp hentry'] at hentry
          cases hentry
      | error cause' => exact .inr ⟨cause, cause', rfl, rfl⟩

theorem isFile {p : Path} {name : String} (hname : p.fileName? = some name)
    (hother : name ≠ Snapshot.fileName) : t'.isFile p = t.isFile p := by
  rcases h.entry? hname hother with ⟨e, he, he'⟩ | ⟨cause, cause', hc, hc'⟩
  · rw [FileTree.isFile, FileTree.isFile, he, he']
  · rw [FileTree.isFile, FileTree.isFile, hc, hc']

theorem modifiedAt? {p : Path} {name : String} (hname : p.fileName? = some name)
    (hother : name ≠ Snapshot.fileName) : t'.modifiedAt? p = t.modifiedAt? p := by
  rcases h.entry? hname hother with ⟨e, he, he'⟩ | ⟨cause, cause', hc, hc'⟩
  · rw [FileTree.modifiedAt?, FileTree.modifiedAt?, he, he']
  · rw [FileTree.modifiedAt?, FileTree.modifiedAt?, hc, hc']

theorem read {p : Path} {name : String} (hname : p.fileName? = some name)
    (hother : name ≠ Snapshot.fileName) : (t'.read p).toOption = (t.read p).toOption := by
  rcases h.entry? hname hother with ⟨e, he, he'⟩ | ⟨cause, cause', hc, hc'⟩
  · rw [FileTree.read, FileTree.read, he, he']
  · rw [FileTree.read, FileTree.read, hc, hc']
    rfl

theorem manifest (folder : Path) : Manifest.ofFolder t' folder = Manifest.ofFolder t folder := by
  have hname : (folder.join Manifest.fileName).fileName? = some Manifest.fileName :=
    Path.fileName?_of_components (Path.components_join (by decide))
  unfold Manifest.ofFolder
  dsimp only
  rcases h.entry? hname (by decide) with ⟨e, he, he'⟩ | ⟨cause, cause', hc, hc'⟩
  · rw [FileTree.holds, FileTree.holds, FileTree.read, FileTree.read, he, he']
  · rw [FileTree.holds, FileTree.holds, hc, hc']
    rfl

theorem holdsComponent (d : Dialect) (folder : Path) :
    NamespaceRoots.holdsComponent t' d.entryExtensions folder =
      NamespaceRoots.holdsComponent t d.entryExtensions folder := by
  unfold NamespaceRoots.holdsComponent
  cases hname : folder.fileName? with
  | none => rfl
  | some name =>
      rw [Option.any_some, Option.any_some, Bool.eq_iff_iff, List.any_eq_true, List.any_eq_true]
      refine exists_congr fun ext => and_congr_right fun hext => ?_
      rw [h.isFile (Path.fileName?_entryIn hname hext) (Snapshot.fileName_ne_entry hext name)]

theorem rootDialect? (folder : Path) (inner : List Path) :
    NamespaceRoots.rootDialect? t' folder inner = NamespaceRoots.rootDialect? t folder inner := by
  have hroot : ∀ d : Dialect,
      NamespaceRoots.isRootOf t' d folder inner = NamespaceRoots.isRootOf t d folder inner := by
    intro d
    rw [NamespaceRoots.isRootOf, NamespaceRoots.isRootOf, funext (h.holdsComponent d)]
  unfold NamespaceRoots.rootDialect?
  rw [hroot .aura, hroot .lwc]

theorem subfolders_cases (e : Exclusion) (folder : Path) :
    (∃ inner, NamespaceRoots.subfolders t e folder = .ok inner ∧
        NamespaceRoots.subfolders t' e folder = .ok inner) ∨
      ∃ cause cause', NamespaceRoots.subfolders t e folder = .error cause ∧
        NamespaceRoots.subfolders t' e folder = .error cause' := by
  have hsub := h.subfolders e folder
  cases hinner : NamespaceRoots.subfolders t e folder with
  | ok inner =>
      rw [hinner] at hsub
      cases hinner' : NamespaceRoots.subfolders t' e folder with
      | ok inner' =>
          rw [hinner'] at hsub
          obtain rfl : inner' = inner := Option.some.inj hsub
          exact .inl ⟨inner', rfl, rfl⟩
      | error cause' =>
          rw [hinner'] at hsub
          cases hsub
  | error cause =>
      rw [hinner] at hsub
      cases hinner' : NamespaceRoots.subfolders t' e folder with
      | ok inner' =>
          rw [hinner'] at hsub
          cases hsub
      | error cause' => exact .inr ⟨cause, cause', rfl, rfl⟩

/-- The search for namespace roots finds the same in both trees. -/
theorem search (e : Exclusion) (depth : Nat) (folder : Path) :
    NamespaceRoots.search t' e depth folder = NamespaceRoots.search t e depth folder := by
  induction depth using Nat.strongRecOn generalizing folder with
  | _ depth ih =>
      rw [NamespaceRoots.search, NamespaceRoots.search]
      rcases h.subfolders_cases e folder with ⟨inner, hi, hi'⟩ | ⟨cause, cause', hc, hc'⟩
      · rw [hi, hi']
        dsimp only
        rw [h.rootDialect?]
        cases depth with
        | zero => rfl
        | succ depth => simp only [funext (ih depth depth.lt_succ_self)]
      · rw [hc, hc']

theorem searchModules (e : Exclusion) (project : Path) :
    NamespaceRoots.searchModules t' e project = NamespaceRoots.searchModules t e project := by
  unfold NamespaceRoots.searchModules
  simp only [h.folders.isFolder, h.search]

/-- The namespace roots of a workspace are the same in both trees. -/
theorem find (e : Exclusion) (kind : WorkspaceKind) (roots : List Path) :
    NamespaceRoots.find t' e kind roots = NamespaceRoots.find t e kind roots := by
  have hpackages : ∀ root, NamespaceRoots.searchPackages t' e root =
      NamespaceRoots.searchPackages t e root := by
    intro root
    unfold NamespaceRoots.searchPackages
    rw [h.manifest, funext (h.search e 5)]
  have hprojects : ∀ root, NamespaceRoots.searchProjects t' e root =
      NamespaceRoots.searchProjects t e root := by
    intro root
    unfold NamespaceRoots.searchProjects
    rcases h.subfolders_cases e root with ⟨inner, hi, hi'⟩ | ⟨cause, cause', hc, hc'⟩
    · rw [hi, hi', funext (h.searchModules e)]
    · rw [hc, hc']
  unfold NamespaceRoots.find
  rw [funext hpackages, funext hprojects, funext (h.searchModules e), funext (h.search e 6),
    funext (h.search e 8)]

theorem entryFile? (d : Dialect) (folder : Path) :
    Candidate.entryFile? t' d folder = Candidate.entryFile? t d folder := by
  refine Candidate.entryFile?_eq_of_files fun name hname ext hext => ?_
  have hentry := Path.fileName?_entryIn hname hext
  have hother := Snapshot.fileName_ne_entry hext name
  exact ⟨h.isFile hentry hother, fun _ => h.modifiedAt? hentry hother⟩

/-- Discovery finds the same candidates in both trees. -/
theorem discover (w : Workspace) (d : Dialect) (r : NamespaceRoots) :
    Candidate.discover t' w d r = Candidate.discover t w d r := by
  have hroot : ∀ root, Candidate.inRoot t' w d root = Candidate.inRoot t w d root := by
    intro root
    unfold Candidate.inRoot
    rcases h.subfolders_cases w.exclusion root with ⟨inner, hi, hi'⟩ | ⟨cause, cause', hc, hc'⟩
    · rw [hi, hi', funext (h.entryFile? d)]
    · rw [hc, hc']
  unfold Candidate.discover
  rw [funext hroot]

section Entry

variable {d : Dialect} {p : Path} (hentry : p.isEntry d.entryExtensions = true)
include hentry

theorem isFile_entry : t'.isFile p = t.isFile p := by
  obtain ⟨name, hname, hother⟩ := Path.fileName?_of_isEntry hentry
  exact h.isFile hname hother

theorem modifiedAt?_entry : t'.modifiedAt? p = t.modifiedAt? p := by
  obtain ⟨name, hname, hother⟩ := Path.fileName?_of_isEntry hentry
  exact h.modifiedAt? hname hother

end Entry

/-- An entry file is compiled to the same in both trees. -/
theorem compile? {d : Dialect} {c : Candidate} (hentry : c.path.isEntry d.entryExtensions = true) :
    c.compile? t' d = c.compile? t d := by
  obtain ⟨name, hname, hother⟩ := Path.fileName?_of_isEntry hentry
  rw [Candidate.compile?_eq_bind, Candidate.compile?_eq_bind, h.read hname hother]

end Lookups

end SameSources

end ComponentAtlas
