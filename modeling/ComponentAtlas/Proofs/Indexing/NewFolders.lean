import ComponentAtlas.Proofs.Files.Closed
import ComponentAtlas.Proofs.Indexing.Sources

/-!
# Trees that grow by snapshots

Saving a snapshot may make folders, in which nothing but the snapshot stands. A folder that stood
before keeps its files and subfolders, and a new one holds no component.
-/

namespace ComponentAtlas

open ComponentAtlas.Text

/-- The name of an entry file in a folder is plain. -/
theorem Path.plainName_entryIn {d : Dialect} {folder : Path} {name ext : String}
    (hname : folder.fileName? = some name) (hext : ext ∈ d.entryExtensions) :
    PlainName (name ++ "." ++ ext) := by
  obtain ⟨hne, hslash, -⟩ := d.entryExtensions_plain ext hext
  obtain ⟨steps, hsteps⟩ := components_of_fileName? hname
  have hplain : PlainName name := plainName_of_mem_components (p := folder) (by simp [hsteps])
  exact hplain.withExtension hne hslash

namespace FileTree

/-- A tree that holds what another one does, and beside it new folders and files of snapshots. -/
structure Grows (t t' : FileTree) : Prop where
  folders : ∀ place, t.get? place = some .folder → t'.get? place = some .folder
  files : ∀ (outer : Place) (name : String), name ≠ Snapshot.fileName →
    t'.get? (outer ++ [name]) = t.get? (outer ++ [name]) ∨
      t.get? (outer ++ [name]) = none ∧ t'.get? (outer ++ [name]) = some .folder
  names : ∀ (here : Place) (keep : String → Bool),
    (∀ name, keep name = true → t.get? (here ++ [name]) = some .folder) →
      (t'.namesAt here).filter keep = (t.namesAt here).filter keep

namespace Grows

theorem refl (t : FileTree) : t.Grows t :=
  ⟨fun _ => id, fun _ _ _ => .inl rfl, fun _ _ _ => rfl⟩

theorem trans {t t' t'' : FileTree} (h : t.Grows t') (h' : t'.Grows t'') : t.Grows t'' where
  folders place hfolder := h'.folders place (h.folders place hfolder)
  files outer name hname := by
    rcases h.files outer name hname with hsame | ⟨hnone, hfolder⟩
    · rw [← hsame]
      exact h'.files outer name hname
    · exact .inr ⟨hnone, h'.folders _ hfolder⟩
  names here keep hkeep := by
    rw [h'.names here keep fun name hname => h.folders _ (hkeep name hname)]
    exact h.names here keep hkeep

/-- A new folder stands where nothing stood. -/
theorem put_folder {t : FileTree} {place : Place} (h : t.get? place = none) :
    t.Grows (t.put place .folder) where
  folders other hfolder := by
    have hne : other ≠ place := by
      rintro rfl
      rw [h] at hfolder
      cases hfolder
    rw [get?_put_of_ne hne]
    exact hfolder
  files outer name _ := by
    rcases Extends.put h (outer ++ [name]) with hsame | hnew
    · exact .inl hsame
    · exact .inr hnew
  names here keep hkeep := by
    refine filter_namesAt_put fun name hname => ?_
    rw [Bool.eq_false_iff]
    intro hkept
    have hfolder := hkeep name hkept
    rw [hname, h] at hfolder
    cases hfolder

/-- The file of a snapshot stands where no folder stood. -/
theorem put_snapshot {t : FileTree} {outer : Place} {text : Option String} {time : Nat}
    (h : t.get? (outer ++ [Snapshot.fileName]) ≠ some .folder) :
    t.Grows (t.put (outer ++ [Snapshot.fileName]) (.file text time)) where
  folders place hfolder := (sameFolders_put h place).mpr hfolder
  files other name hname := by
    refine .inl (get?_put_of_ne fun heq => hname ?_)
    exact List.head_eq_of_cons_eq (List.append_inj' heq rfl).2
  names here keep hkeep := by
    refine filter_namesAt_put fun name hname => ?_
    rw [Bool.eq_false_iff]
    intro hkept
    exact h (hname ▸ hkeep name hkept)

end Grows

theorem makeFolders_grows {t t' : FileTree} {here : Place} {pieces : List String}
    (h : t.makeFolders here pieces = .ok t') : t.Grows t' := by
  induction pieces generalizing here t with
  | nil =>
      cases h
      exact .refl _
  | cons piece rest ih =>
      rw [makeFolders] at h
      split at h
      · exact ih h
      · split at h
        · exact ih h
        · dsimp only at h
          split at h
          · exact ih h
          · cases h
          · next hnone => exact (Grows.put_folder hnone).trans (ih h)

theorem createFolders_grows {t t' : FileTree} {p : Path} (h : t.createFolders p = .ok t') :
    t.Grows t' := by
  unfold createFolders at h
  split at h
  · cases h
  · exact makeFolders_grows h

end FileTree

namespace FileTree.Grows

variable {t t' : FileTree} (h : t.Grows t')
include h

/-- A way through the smaller tree is one through the larger tree. -/
theorem reach {steps : List Step} {place : Place} (hreach : t.reach steps = some place) :
    t'.reach steps = some place :=
  reach_of_folders h.folders hreach

theorem isFolder {p : Path} (hp : t.isFolder p = true) : t'.isFolder p = true := by
  rw [isFolder_iff, entry?_folder_iff] at hp ⊢
  obtain ⟨place, hplace, hfolder⟩ := hp
  exact ⟨place, h.reach hplace, h.folders place hfolder⟩

/-- A folder that stood before holds the files that it held. -/
theorem entry?_of_old {folder : Path} (hfolder : t.isFolder folder = true) {name : String}
    (hname : PlainName name) (hother : name ≠ Snapshot.fileName) {text : Option String}
    {time : Nat} :
    t'.entry? (folder.join name) = .ok (.file text time) ↔
      t.entry? (folder.join name) = .ok (.file text time) := by
  obtain ⟨here, hhere, hget⟩ := entry?_folder_iff.mp (isFolder_iff.mp hfolder)
  have hreach : t.reach (folder.join name).components = some (here ++ [name]) := by
    rw [Path.components_join hname]
    exact (reach_concat _ _).mpr ⟨here, hhere, hget, rfl⟩
  have hfile : t'.get? (here ++ [name]) = some (.file text time) ↔
      t.get? (here ++ [name]) = some (.file text time) := by
    rcases h.files here name hother with hsame | ⟨hnone, hnew⟩
    · rw [hsame]
    · rw [hnone, hnew]
      exact ⟨nofun, nofun⟩
  rw [entry?_join_iff hname, entry?_join_iff hname]
  constructor
  · rintro ⟨place, hplace, hget'⟩
    obtain rfl : here ++ [name] = place := Option.some.inj ((h.reach hreach).symm.trans hplace)
    exact ⟨_, hreach, hfile.mp hget'⟩
  · rintro ⟨place, hplace, hget'⟩
    obtain rfl : here ++ [name] = place := Option.some.inj (hreach.symm.trans hplace)
    exact ⟨_, h.reach hreach, hfile.mpr hget'⟩

theorem isFile_of_old {folder : Path} (hfolder : t.isFolder folder = true) {name : String}
    (hname : PlainName name) (hother : name ≠ Snapshot.fileName) :
    t'.isFile (folder.join name) = t.isFile (folder.join name) := by
  rw [Bool.eq_iff_iff, isFile_iff, isFile_iff]
  exact exists_congr fun text => exists_congr fun time => h.entry?_of_old hfolder hname hother

/-- A folder that is new holds no file but a snapshot. -/
theorem not_file_of_new (ht : t.Closed) {folder : Path} (hnew : t.get? folder.place ≠ some .folder)
    {name : String} (hname : PlainName name) (hother : name ≠ Snapshot.fileName) :
    ¬t'.isFile (folder.join name) = true := by
  intro hfile
  obtain ⟨text, time, hentry⟩ := isFile_iff.mp hfile
  have hget := get?_place hentry
  rw [Path.place_join hname] at hget
  rcases h.files folder.place name hother with hsame | ⟨-, hfolder⟩
  · exact hnew (ht.folder (hsame.symm.trans hget))
  · rw [hfolder] at hget
    cases hget

section Components

variable {d : Dialect} {folder : Path}

theorem holdsComponent_of_old (hfolder : t.isFolder folder = true) :
    NamespaceRoots.holdsComponent t' d.entryExtensions folder =
      NamespaceRoots.holdsComponent t d.entryExtensions folder := by
  unfold NamespaceRoots.holdsComponent
  cases hname : folder.fileName? with
  | none => rfl
  | some name =>
      rw [Option.any_some, Option.any_some, Bool.eq_iff_iff, List.any_eq_true, List.any_eq_true]
      refine exists_congr fun ext => and_congr_right fun hext => ?_
      rw [h.isFile_of_old hfolder (Path.plainName_entryIn hname hext)
        (Snapshot.fileName_ne_entry hext name)]

theorem holdsComponent_of_new (ht : t.Closed) (hnew : t.get? folder.place ≠ some .folder) :
    NamespaceRoots.holdsComponent t' d.entryExtensions folder = false := by
  unfold NamespaceRoots.holdsComponent
  cases hname : folder.fileName? with
  | none => rfl
  | some name =>
      rw [Option.any_some, List.any_eq_false]
      intro ext hext
      exact h.not_file_of_new ht hnew (Path.plainName_entryIn hname hext)
        (Snapshot.fileName_ne_entry hext name)

theorem entryFile?_of_old (hfolder : t.isFolder folder = true) :
    Candidate.entryFile? t' d folder = Candidate.entryFile? t d folder := by
  refine Candidate.entryFile?_eq_of_files fun name hname ext hext => ?_
  have hplain := Path.plainName_entryIn hname hext
  have hother := Snapshot.fileName_ne_entry hext name
  refine ⟨h.isFile_of_old hfolder hplain hother, fun hfile => ?_⟩
  obtain ⟨text, time, hentry⟩ := isFile_iff.mp hfile
  rw [modifiedAt?_of_file hentry,
    modifiedAt?_of_file ((h.entry?_of_old hfolder hplain hother).mpr hentry)]

theorem entryFile?_of_new (ht : t.Closed) (hnew : t.get? folder.place ≠ some .folder) :
    Candidate.entryFile? t' d folder = none := by
  cases hname : folder.fileName? with
  | none => rw [Candidate.entryFile?, hname, Option.bind_none]
  | some name =>
      cases hfound : Candidate.entryFile? t' d folder with
      | none => rfl
      | some found =>
          obtain ⟨ext, hext, hpath, ⟨text, hentry⟩, -⟩ :=
            (Candidate.entryFile?_eq_some_iff hname).mp hfound
          have hfile := isFile_iff.mpr ⟨text, _, hentry⟩
          rw [hpath] at hfile
          exact absurd hfile (h.not_file_of_new ht hnew (Path.plainName_entryIn hname hext)
            (Snapshot.fileName_ne_entry hext name))

end Components

/-- A folder that stood before has the subfolders that it had, and new ones. -/
theorem subfolders_of_old (hnamed : t.WellNamed) (hnamed' : t'.WellNamed) (e : Exclusion)
    {folder : Path} (hfolder : t.isFolder folder = true) :
    ∃ inner', NamespaceRoots.subfolders t' e folder = .ok inner' ∧
      NamespaceRoots.subfolders t e folder = .ok (inner'.filter t.isFolder) ∧
        ∀ p ∈ inner', t.isFolder p = false → t.get? p.place ≠ some .folder := by
  obtain ⟨here, hhere, hget⟩ := entry?_folder_iff.mp (isFolder_iff.mp hfolder)
  have hfolders : ∀ tree : FileTree, tree.WellNamed → (tree.namesAt here).filter (fun name =>
      t.isFolder (folder.join name) && !e.excludes (folder.join name)) =
        (tree.namesAt here).filter fun name =>
          decide (t.get? (here ++ [name]) = some .folder) && !e.excludes (folder.join name) := by
    intro tree htree
    refine List.filter_congr fun name hname => ?_
    congr 1
    rw [Bool.eq_iff_iff, decide_eq_true_iff]
    exact isFolder_join_iff hhere hget (htree.plain hname)
  have hnames := h.names here
    (fun name => decide (t.get? (here ++ [name]) = some .folder) && !e.excludes (folder.join name))
    fun name hname => of_decide_eq_true (Bool.and_eq_true_iff.mp hname).1
  have hinner' := FileTree.children_eq_ok.mpr ⟨here, h.reach hhere, h.folders here hget, rfl⟩
  have hinner := FileTree.children_eq_ok.mpr ⟨here, hhere, hget, rfl⟩
  refine ⟨_, by rw [NamespaceRoots.subfolders, hinner']; rfl, ?_, ?_⟩
  · rw [NamespaceRoots.subfolders, hinner, Except.map, List.filter_filter, List.filter_map,
      List.filter_map]
    congr 2
    refine (hfolders t hnamed).trans (hnames.symm.trans ((hfolders t' hnamed').symm.trans ?_))
    refine List.filter_congr fun name _ => ?_
    simp only [Function.comp_apply]
    cases hold : t.isFolder (folder.join name) with
    | false => rfl
    | true => rw [h.isFolder hold, Bool.true_and, Bool.true_and]
  · intro p hp hstands hget'
    obtain ⟨hchild, -⟩ := List.mem_filter.mp hp
    obtain ⟨name, hname, rfl⟩ := List.mem_map.mp hchild
    have hplain := hnamed'.plain hname
    have hplace : (folder.join name).place = here ++ [name] := by
      rw [Path.place_join hplain, reach_eq hhere, Path.place]
    rw [hplace, ← isFolder_join_iff hhere hget hplain, hstands] at hget'
    cases hget'

omit h in
theorem subfolders_of_new (ht : t.Closed) (hnamed' : t'.WellNamed) (e : Exclusion) {folder : Path}
    (hnew : t.get? folder.place ≠ some .folder) {inner' : List Path}
    (hinner : NamespaceRoots.subfolders t' e folder = .ok inner') :
    ∀ p ∈ inner', t.get? p.place ≠ some .folder := by
  intro p hp hfolder
  obtain ⟨name, hname, -, -, rfl⟩ := Candidate.mem_subfolders hnamed' hinner hp
  rw [Path.place_join hname] at hfolder
  exact hnew (ht.folder hfolder)

end FileTree.Grows

namespace Snapshot

variable {t t' : FileTree} {folder : Path} {d : Dialect} {tags : List Tag}

theorem place_file_concat (folder : Path) (d : Dialect) : (file folder d).place =
    ((folder.join "indexes").join d.word).place ++ [fileName] :=
  Path.place_join (by decide)

/-- Saving lets a tree grow. -/
theorem save_grows (h : save t folder d tags = .ok t') : t.Grows t' := by
  obtain ⟨middle, hmade, hwrite⟩ := save_steps h
  obtain ⟨rfl, hnot⟩ := FileTree.write_eq_ok hwrite
  rw [place_file_concat] at hnot ⊢
  rcases hmade with rfl | ⟨p, hmade⟩
  · exact .put_snapshot hnot
  · exact (FileTree.createFolders_grows hmade).trans (.put_snapshot hnot)

theorem save_closed (h : save t folder d tags = .ok t') (ht : t.Closed) : t'.Closed := by
  obtain ⟨middle, hmade, hwrite⟩ := save_steps h
  have hmiddle : middle.Closed := by
    rcases hmade with rfl | ⟨p, hmade⟩
    · exact ht
    · exact FileTree.createFolders_closed ht hmade
  have hname : PlainName fileName := by decide
  have houter := FileTree.folder_of_write hname hwrite
  obtain ⟨rfl, hnot⟩ := FileTree.write_eq_ok hwrite
  rw [place_file_concat] at hnot ⊢
  exact hmiddle.put houter hnot

/-- Saving leaves the snapshots of the other dialect. -/
theorem entry?_save_of_ne (h : save t folder d tags = .ok t') {other : Path} {e : Dialect}
    (he : e ≠ d) {text : Option String} {time : Nat}
    (hfile : t.entry? (file other e) = .ok (.file text time)) :
    t'.entry? (file other e) = .ok (.file text time) := by
  have hname : PlainName "custom-components.json" := by decide
  have hkept : t'.get? (file other e).place = some (.file text time) := by
    obtain ⟨middle, hextends, -, rfl⟩ := save_eq_ok h
    rw [FileTree.get?_put_of_ne fun hplace => he (dialect_of_place hplace)]
    have hold := FileTree.get?_place hfile
    rcases hextends (file other e).place with hsame | ⟨hnone, -⟩
    · exact hsame.trans hold
    · rw [hnone] at hold
      cases hold
  obtain ⟨place, hplace, -⟩ := (FileTree.entry?_join_iff hname).mp hfile
  refine (FileTree.entry?_join_iff hname).mpr ⟨place, (save_grows h).reach hplace, ?_⟩
  rw [FileTree.reach_eq hplace]
  exact hkept

end Snapshot

end ComponentAtlas
