import ComponentAtlas.Proofs.Indexing.NewFolders

/-!
# Roots that are found again

When a tree has grown by snapshots, the search for namespace roots finds the roots that it found
before, in the same order, and beside them at most new folders that bear the reserved name. These
have no candidates, so that discovery finds what it found before.
-/

namespace ComponentAtlas

open ComponentAtlas.Text

namespace NamespaceRoots

variable {t : FileTree}

theorem subfolders_of_not_folder (e : Exclusion) {folder : Path} (h : t.isFolder folder = false) :
    ∃ cause, subfolders t e folder = .error cause := by
  cases hinner : subfolders t e folder with
  | error cause => exact ⟨cause, rfl⟩
  | ok inner =>
      have hsome : (subfolders t e folder).toOption = some inner := by rw [hinner]; rfl
      obtain ⟨here, hhere, hget, -⟩ := Candidate.subfolders_eq_some.mp hsome
      rw [FileTree.isFolder_iff.mpr (FileTree.entry?_folder_iff.mpr ⟨here, hhere, hget⟩)] at h
      cases h

theorem search_of_not_folder (e : Exclusion) (depth : Nat) {folder : Path}
    (h : t.isFolder folder = false) : search t e depth folder = [] := by
  obtain ⟨cause, hinner⟩ := subfolders_of_not_folder e h
  unfold search
  rw [hinner]

theorem searchModules_eq_search (t : FileTree) (e : Exclusion) (project : Path) :
    searchModules t e project = search t e 2 (project.join modulesName) := by
  unfold searchModules
  dsimp only
  split
  · rfl
  · next h => rw [search_of_not_folder e 2 (Bool.eq_false_iff.mpr h)]

theorem forDialect_ofFound (found : List (Dialect × Path)) (d : Dialect) :
    (ofFound found).forDialect d = found.filterMap fun f => if f.1 = d then some f.2 else none := by
  cases d <;> rfl

end NamespaceRoots

/-- What the search finds when a tree has grown: what it found before, and folders of the reserved
name that are new. -/
structure Refound (t : FileTree) (before after : List (Dialect × Path)) : Prop where
  old : after.filter (fun f => t.isFolder f.2) = before
  new : ∀ f ∈ after, t.isFolder f.2 = false →
    f.1 = .lwc ∧ f.2.fileName? = some Dialect.lwc.word ∧ t.get? f.2.place ≠ some .folder

namespace Refound

variable {t : FileTree}

theorem nil : Refound t [] [] :=
  ⟨rfl, nofun⟩

theorem append {before after before' after' : List (Dialect × Path)} (h : Refound t before after)
    (h' : Refound t before' after') : Refound t (before ++ before') (after ++ after') where
  old := by rw [List.filter_append, h.old, h'.old]
  new f hf := (List.mem_append.mp hf).elim (h.new f) (h'.new f)

theorem single_old {d : Dialect} {folder : Path} (h : t.isFolder folder = true) :
    Refound t [(d, folder)] [(d, folder)] where
  old := by simp [h]
  new f hf hstands := by
    obtain rfl := List.mem_singleton.mp hf
    rw [h] at hstands
    cases hstands

theorem isFolder_of_new {p : Path} (h : t.get? p.place ≠ some .folder) : t.isFolder p = false := by
  rw [Bool.eq_false_iff]
  intro hfolder
  exact h (FileTree.get?_place (FileTree.isFolder_iff.mp hfolder))

theorem single_new {folder : Path} (h : t.get? folder.place ≠ some .folder)
    (hname : folder.fileName? = some Dialect.lwc.word) : Refound t [] [(.lwc, folder)] where
  old := by simp [isFolder_of_new h]
  new f hf _ := by
    obtain rfl := List.mem_singleton.mp hf
    exact ⟨rfl, hname, h⟩

theorem flatMap {folders : List Path} {f g : Path → List (Dialect × Path)}
    (h : ∀ p ∈ folders, Refound t (f p) (g p)) :
    Refound t (folders.flatMap f) (folders.flatMap g) := by
  induction folders with
  | nil => exact .nil
  | cons p rest ih =>
      obtain ⟨hp, hrest⟩ := List.forall_mem_cons.mp h
      rw [List.flatMap_cons, List.flatMap_cons]
      exact hp.append (ih hrest)

/-- Where the search goes into old and new folders it finds both. -/
theorem flatMap_filter {folders : List Path} {f g : Path → List (Dialect × Path)}
    (hold : ∀ p ∈ folders, t.isFolder p = true → Refound t (f p) (g p))
    (hnew : ∀ p ∈ folders, t.isFolder p = false → Refound t [] (g p)) :
    Refound t ((folders.filter t.isFolder).flatMap f) (folders.flatMap g) := by
  induction folders with
  | nil => exact .nil
  | cons p rest ih =>
      obtain ⟨hp, hrest⟩ := List.forall_mem_cons.mp hold
      obtain ⟨hp', hrest'⟩ := List.forall_mem_cons.mp hnew
      rw [List.filter_cons, List.flatMap_cons]
      split
      · next hstands =>
          rw [List.flatMap_cons]
          exact (hp hstands).append (ih hrest hrest')
      · next hstands =>
          exact (hp' (Bool.eq_false_iff.mpr hstands)).append (ih hrest hrest')

/-- The roots of a dialect among old findings are those that stood before. -/
theorem ofFound {before after : List (Dialect × Path)} (h : Refound t before after)
    (d : Dialect) :
    ((NamespaceRoots.ofFound after).forDialect d).filter t.isFolder =
        (NamespaceRoots.ofFound before).forDialect d ∧
      ∀ root ∈ (NamespaceRoots.ofFound after).forDialect d, t.isFolder root = false →
        d = .lwc ∧ root.fileName? = some Dialect.lwc.word ∧ t.get? root.place ≠ some .folder := by
  rw [NamespaceRoots.forDialect_ofFound, NamespaceRoots.forDialect_ofFound]
  refine ⟨?_, fun root hroot hstands => ?_⟩
  · rw [← h.old, List.filter_filterMap, List.filterMap_filter]
    refine List.filterMap_congr fun f _ => ?_
    by_cases hd : f.1 = d
    · cases hf : t.isFolder f.2 <;> simp [hd, hf]
    · simp [hd]
  · obtain ⟨f, hf, hsome⟩ := List.mem_filterMap.mp hroot
    by_cases hd : f.1 = d
    · rw [if_pos hd, Option.some.injEq] at hsome
      subst hsome
      obtain ⟨hlwc, hname⟩ := h.new f hf hstands
      exact ⟨hd ▸ hlwc, hname⟩
    · rw [if_neg hd] at hsome
      cases hsome

end Refound

namespace FileTree.Grows

variable {t t' : FileTree} (h : t.Grows t') (ht : t.Closed) (hnamed : t.WellNamed)
  (hnamed' : t'.WellNamed)
include h ht

theorem rootDialect?_of_old {folder : Path} {inner' : List Path}
    (hnew : ∀ p ∈ inner', t.isFolder p = false → t.get? p.place ≠ some .folder) :
    NamespaceRoots.rootDialect? t' folder inner' =
      NamespaceRoots.rootDialect? t folder (inner'.filter t.isFolder) := by
  have hroot : ∀ d : Dialect, NamespaceRoots.isRootOf t' d folder inner' =
      NamespaceRoots.isRootOf t d folder (inner'.filter t.isFolder) := by
    intro d
    rw [NamespaceRoots.isRootOf, NamespaceRoots.isRootOf, List.any_filter]
    congr 1
    rw [Bool.eq_iff_iff, List.any_eq_true, List.any_eq_true]
    refine exists_congr fun p => and_congr_right fun hp => ?_
    cases hstands : t.isFolder p with
    | true => rw [h.holdsComponent_of_old hstands, Bool.true_and]
    | false => rw [h.holdsComponent_of_new ht (hnew p hp hstands), Bool.false_and]
  unfold NamespaceRoots.rootDialect?
  rw [hroot .aura, hroot .lwc]

/-- A new folder is at most a root by its name. -/
theorem rootDialect?_of_new {folder : Path} {inner' : List Path}
    (hnew : ∀ p ∈ inner', t.get? p.place ≠ some .folder) {d : Dialect}
    (hroot : NamespaceRoots.rootDialect? t' folder inner' = some d) :
    d = .lwc ∧ folder.fileName? = some Dialect.lwc.word := by
  have hnone : ∀ e : Dialect,
      (inner'.any (NamespaceRoots.holdsComponent t' e.entryExtensions)) = false := by
    intro e
    rw [List.any_eq_false]
    intro p hp
    rw [h.holdsComponent_of_new ht (hnew p hp)]
    exact Bool.false_ne_true
  unfold NamespaceRoots.rootDialect? NamespaceRoots.isRootOf at hroot
  rw [hnone .aura, hnone .lwc] at hroot
  split at hroot
  · next haura => exact absurd haura (by simp)
  · split at hroot
    · next hlwc =>
        cases hroot
        exact ⟨rfl, by simpa using hlwc⟩
    · cases hroot

include hnamed'

/-- In a new folder the search finds new folders of the reserved name. -/
theorem search_of_new (e : Exclusion) (depth : Nat) {folder : Path}
    (hnew : t.get? folder.place ≠ some .folder) :
    Refound t [] (NamespaceRoots.search t' e depth folder) := by
  induction depth using Nat.strongRecOn generalizing folder with
  | _ depth ih =>
      rw [NamespaceRoots.search]
      split
      · exact .nil
      · next inner' hinner =>
          have hinside := subfolders_of_new ht hnamed' e hnew hinner
          split
          · next d hroot =>
              obtain ⟨rfl, hname⟩ := h.rootDialect?_of_new ht hinside hroot
              exact .single_new hnew hname
          · cases depth with
            | zero => exact .nil
            | succ depth =>
                have hmap := Refound.flatMap fun p hp => ih depth depth.lt_succ_self (hinside p hp)
                rwa [List.flatMap_eq_nil_iff.mpr fun _ _ => rfl] at hmap

include hnamed

/-- In an old folder the search finds what it found before, and new folders. -/
theorem search_of_old (e : Exclusion) (depth : Nat) {folder : Path}
    (hfolder : t.isFolder folder = true) :
    Refound t (NamespaceRoots.search t e depth folder)
      (NamespaceRoots.search t' e depth folder) := by
  induction depth using Nat.strongRecOn generalizing folder with
  | _ depth ih =>
      obtain ⟨inner', hinner', hinner, hnew⟩ := h.subfolders_of_old hnamed hnamed' e hfolder
      rw [NamespaceRoots.search, NamespaceRoots.search, hinner, hinner']
      dsimp only
      rw [h.rootDialect?_of_old ht hnew]
      split
      · exact .single_old hfolder
      · cases depth with
        | zero => exact .nil
        | succ depth =>
            exact .flatMap_filter (fun p _ hold => ih depth depth.lt_succ_self hold)
              fun p hp hstands => h.search_of_new ht hnamed' e depth (hnew p hp hstands)

/-- A search that starts at a straight path finds what it found before, and new folders. -/
theorem search (e : Exclusion) (depth : Nat) {start : Path} (hstart : start.Straight) :
    Refound t (NamespaceRoots.search t e depth start) (NamespaceRoots.search t' e depth start) := by
  cases hstands : t.isFolder start with
  | true => exact h.search_of_old ht hnamed hnamed' e depth hstands
  | false =>
      rw [NamespaceRoots.search_of_not_folder e depth hstands]
      exact h.search_of_new ht hnamed' e depth (ht.not_folder hstart hstands)

theorem searchModules (e : Exclusion) {project : Path} (hproject : project.Straight) :
    Refound t (NamespaceRoots.searchModules t e project)
      (NamespaceRoots.searchModules t' e project) := by
  rw [NamespaceRoots.searchModules_eq_search, NamespaceRoots.searchModules_eq_search]
  exact h.search ht hnamed hnamed' e 2 (hproject.join (by decide))

theorem searchProjects (e : Exclusion) {root : Path} (hroot : root.Straight) :
    Refound t (NamespaceRoots.searchProjects t e root)
      (NamespaceRoots.searchProjects t' e root) := by
  -- The modules of a new project are new.
  have hmodules : ∀ p : Path, t.get? p.place ≠ some .folder →
      Refound t [] (NamespaceRoots.searchModules t' e p) := by
    intro p hp
    rw [NamespaceRoots.searchModules_eq_search]
    refine h.search_of_new ht hnamed' e 2 fun hfolder => hp ?_
    rw [Path.place_join (by decide)] at hfolder
    exact ht.folder hfolder
  unfold NamespaceRoots.searchProjects
  cases hstands : t.isFolder root with
  | true =>
      obtain ⟨inner', hinner', hinner, hnew⟩ := h.subfolders_of_old hnamed hnamed' e hstands
      rw [hinner, hinner']
      refine .flatMap_filter (fun p hp _ => ?_) fun p hp hold => hmodules p (hnew p hp hold)
      obtain ⟨name, hname, -, -, rfl⟩ := Candidate.mem_subfolders hnamed' hinner' hp
      exact h.searchModules ht hnamed hnamed' e (hroot.join hname)
  | false =>
      obtain ⟨cause, hinner⟩ := NamespaceRoots.subfolders_of_not_folder e hstands
      have hroot' := ht.not_folder hroot hstands
      rw [hinner]
      dsimp only
      split
      · exact .nil
      · next inner' hinner' =>
          have hinside := subfolders_of_new ht hnamed' e hroot' hinner'
          have hmap := Refound.flatMap fun p hp => hmodules p (hinside p hp)
          rwa [List.flatMap_eq_nil_iff.mpr fun _ _ => rfl] at hmap

omit ht hnamed hnamed' in
/-- A manifest that could be read is read again. -/
theorem manifest {root : Path} {m : Manifest} (hm : Manifest.ofFolder t root = .ok m) :
    Manifest.ofFolder t' root = .ok m := by
  have hname : PlainName Manifest.fileName := by decide
  unfold Manifest.ofFolder at hm
  dsimp only at hm
  split at hm
  · next hholds =>
      split at hm
      · cases hm
      · next text hread =>
          obtain ⟨time, hfile⟩ := file_of_read
            (show (t.read (root.join Manifest.fileName)).toOption = some text by rw [hread]; rfl)
          have hfolder : t.isFolder root = true := isFolder_of_join hname hfile
          have hfile' := (h.entry?_of_old hfolder hname (by decide)).mpr hfile
          have hholds' : t'.holds (root.join Manifest.fileName) = true := by
            rw [holds, hfile']
            rfl
          have hread' : t'.read (root.join Manifest.fileName) = .ok text := by
            rw [read, hfile']
            rfl
          unfold Manifest.ofFolder
          dsimp only
          rw [if_pos hholds', hread']
          exact hm
  · cases hm

/-- The packages of a project are searched as before. -/
theorem searchPackages (e : Exclusion) {root : Path} {found : List (Dialect × Path)}
    (hpackages : ∀ m, Manifest.ofFolder t root = .ok m → ∀ p ∈ m.folders root, p.Straight)
    (hfound : NamespaceRoots.searchPackages t e root = .ok found) :
    ∃ found', NamespaceRoots.searchPackages t' e root = .ok found' ∧ Refound t found found' := by
  unfold NamespaceRoots.searchPackages at hfound ⊢
  cases hm : Manifest.ofFolder t root with
  | error cause =>
      rw [hm] at hfound
      cases hfound
  | ok m =>
      rw [hm] at hfound
      cases hfound
      rw [h.manifest hm]
      exact ⟨_, rfl, .flatMap fun p hp => h.search ht hnamed hnamed' e 5 (hpackages m hm p hp)⟩

theorem mapM_searchPackages (e : Exclusion) {roots : List Path}
    (hpackages : ∀ root ∈ roots, ∀ m, Manifest.ofFolder t root = .ok m →
      ∀ p ∈ m.folders root, p.Straight)
    {found : List (List (Dialect × Path))}
    (hfound : roots.mapM (NamespaceRoots.searchPackages t e) = .ok found) :
    ∃ found', roots.mapM (NamespaceRoots.searchPackages t' e) = .ok found' ∧
      Refound t found.flatten found'.flatten := by
  induction roots generalizing found with
  | nil =>
      cases hfound
      exact ⟨[], rfl, .nil⟩
  | cons root rest ih =>
      obtain ⟨hroot, hrest⟩ := List.forall_mem_cons.mp hpackages
      rw [List.mapM_cons] at hfound ⊢
      cases hfirst : NamespaceRoots.searchPackages t e root with
      | error cause =>
          rw [hfirst] at hfound
          cases hfound
      | ok first =>
          rw [hfirst] at hfound
          cases hmore : rest.mapM (NamespaceRoots.searchPackages t e) with
          | error cause =>
              rw [hmore] at hfound
              cases hfound
          | ok more =>
              rw [hmore] at hfound
              cases hfound
              obtain ⟨first', hfirst', hrefound⟩ :=
                h.searchPackages ht hnamed hnamed' e hroot hfirst
              obtain ⟨more', hmore', hmoreFound⟩ := ih hrest hmore
              rw [hfirst', hmore']
              exact ⟨first' :: more', rfl, hrefound.append hmoreFound⟩

/-- The namespace roots of a workspace are found again, and beside them at most new folders. -/
theorem find {e : Exclusion} {kind : WorkspaceKind} {roots : List Path}
    (hroots : ∀ root ∈ roots, root.Straight)
    (hpackages : ∀ root ∈ roots, ∀ m, Manifest.ofFolder t root = .ok m →
      ∀ p ∈ m.folders root, p.Straight)
    {r : NamespaceRoots} (hfind : NamespaceRoots.find t e kind roots = .ok r) :
    ∃ before after, r = .ofFound before ∧ Refound t before after ∧
      NamespaceRoots.find t' e kind roots = .ok (.ofFound after) := by
  have hsearch : ∀ depth, Refound t (roots.flatMap (NamespaceRoots.search t e depth))
      (roots.flatMap (NamespaceRoots.search t' e depth)) := fun depth =>
    .flatMap fun root hroot => h.search ht hnamed hnamed' e depth (hroots root hroot)
  cases kind with
  | packageSet =>
      unfold NamespaceRoots.find at hfind ⊢
      cases hfound : roots.mapM (NamespaceRoots.searchPackages t e) with
      | error cause =>
          rw [hfound] at hfind
          cases hfind
      | ok found =>
          rw [hfound] at hfind
          cases hfind
          obtain ⟨found', hfound', hrefound⟩ :=
            h.mapM_searchPackages ht hnamed hnamed' e hpackages hfound
          rw [hfound']
          exact ⟨_, _, rfl, hrefound, rfl⟩
  | largeAll =>
      cases hfind
      exact ⟨_, _, rfl, .flatMap fun root hroot =>
        h.searchProjects ht hnamed hnamed' e (hroots root hroot), rfl⟩
  | largePartial =>
      cases hfind
      exact ⟨_, _, rfl, .flatMap fun root hroot =>
        h.searchModules ht hnamed hnamed' e (hroots root hroot), rfl⟩
  | monorepo =>
      cases hfind
      exact ⟨_, _, rfl, hsearch 8, rfl⟩
  | single =>
      cases hfind
      exact ⟨_, _, rfl, hsearch 6, rfl⟩
  | singleWithFramework =>
      cases hfind
      exact ⟨_, _, rfl, hsearch 6, rfl⟩
  | unknown =>
      cases hfind
      exact ⟨_, _, rfl, hsearch 6, rfl⟩

end FileTree.Grows

namespace Candidate

variable {t t' : FileTree} {w : Workspace} {d : Dialect}

theorem inRoot_of_not_folder {root : Path} (h : t.isFolder root = false) :
    inRoot t w d root = [] := by
  obtain ⟨cause, hinner⟩ := NamespaceRoots.subfolders_of_not_folder w.exclusion h
  rw [inRoot, hinner]

theorem flatMap_inRoot_filter (roots : List Path) :
    (roots.filter t.isFolder).flatMap (inRoot t w d) = roots.flatMap (inRoot t w d) := by
  induction roots with
  | nil => rfl
  | cons root rest ih =>
      rw [List.flatMap_cons, List.filter_cons, ← ih]
      split
      · rw [List.flatMap_cons]
      · next hstands => rw [inRoot_of_not_folder (Bool.eq_false_iff.mpr hstands), List.nil_append]

/-- Roots that are no folders have no candidates. -/
theorem discover_congr {r r' : NamespaceRoots}
    (h : (r'.forDialect d).filter t.isFolder = (r.forDialect d).filter t.isFolder) :
    discover t w d r' = discover t w d r := by
  unfold discover
  rw [← flatMap_inRoot_filter, h, flatMap_inRoot_filter]

section Grows

variable (h : t.Grows t') (ht : t.Closed) (hnamed : t.WellNamed) (hnamed' : t'.WellNamed)
include h ht hnamed hnamed'

theorem inRoot_of_old {root : Path} (hroot : t.isFolder root = true) :
    inRoot t' w d root = inRoot t w d root := by
  obtain ⟨inner', hinner', hinner, hnew⟩ := h.subfolders_of_old hnamed hnamed' w.exclusion hroot
  rw [inRoot, inRoot, hinner, hinner']
  dsimp only
  rw [List.filterMap_filter]
  refine List.filterMap_congr fun p hp => ?_
  cases hstands : t.isFolder p with
  | true => rw [h.entryFile?_of_old hstands, if_pos rfl]
  | false =>
      rw [h.entryFile?_of_new ht (hnew p hp hstands), if_neg Bool.false_ne_true, Option.map_none]

omit hnamed in
theorem inRoot_of_new {root : Path} (hroot : t.get? root.place ≠ some .folder) :
    inRoot t' w d root = [] := by
  unfold inRoot
  split
  · rfl
  · next inner' hinner' =>
      have hinside := FileTree.Grows.subfolders_of_new ht hnamed' w.exclusion hroot hinner'
      refine List.filterMap_eq_nil_iff.mpr fun p hp => ?_
      rw [h.entryFile?_of_new ht (hinside p hp), Option.map_none]

/-- Old and new folders have the candidates that they had before. -/
theorem discover_grows {r : NamespaceRoots}
    (hroots : ∀ root ∈ r.forDialect d,
      t.isFolder root = false → t.get? root.place ≠ some .folder) :
    discover t' w d r = discover t w d r := by
  unfold discover
  rw [List.flatMap_def, List.flatMap_def]
  congr 1
  refine List.map_congr_left fun root hroot => ?_
  cases hstands : t.isFolder root with
  | true => exact inRoot_of_old h ht hnamed hnamed' hstands
  | false =>
      rw [inRoot_of_new h ht hnamed' (hroots root hroot hstands), inRoot_of_not_folder hstands]

omit ht hnamed hnamed' in
/-- A candidate is compiled to what it was compiled to before. -/
theorem compile?_grows {root : Path} {name ext : String} {c : Candidate}
    (hc : c.Stands t w d root name ext) : c.compile? t' d = c.compile? t d := by
  obtain ⟨text, hfile⟩ := hc.file
  have hfolder : t.isFolder (root.join name) = true := by
    obtain ⟨place, -, hplace, hroot, hinner, -⟩ := hc.places
    exact (FileTree.isFolder_join_iff hplace hroot hc.plain).mpr hinner
  have hfile' : t'.entry? c.path = .ok (.file text c.modifiedAt) := by
    rw [hc.path] at hfile ⊢
    exact (h.entry?_of_old hfolder hc.plainFile
      (Snapshot.fileName_ne_entry hc.extension name)).mpr hfile
  rw [compile?_eq_bind, compile?_eq_bind, FileTree.read_of_file hfile, FileTree.read_of_file hfile']

end Grows

end Candidate

/-- Roots of a dialect that are the same as far as they are folders of a tree. -/
structure NamespaceRoots.SameIn (t : FileTree) (d : Dialect) (r r' : NamespaceRoots) : Prop where
  standing : (r'.forDialect d).filter t.isFolder = (r.forDialect d).filter t.isFolder
  missing : ∀ root ∈ r'.forDialect d, t.isFolder root = false → t.get? root.place ≠ some .folder

namespace NamespaceRoots.SameIn

variable {t t' : FileTree} {d : Dialect} {r r' : NamespaceRoots}

theorem of_standing (h : ∀ root ∈ r.forDialect d, t.isFolder root = true) : SameIn t d r r where
  standing := rfl
  missing root hroot hstands := by
    rw [h root hroot] at hstands
    cases hstands

/-- A search in a tree that has grown finds the same roots. -/
theorem of_find (hgrows : t.Grows t') (ht : t.Closed) (hnamed : t.WellNamed)
    (hnamed' : t'.WellNamed) {e : Exclusion} {kind : WorkspaceKind} {roots : List Path}
    (hroots : ∀ root ∈ roots, root.Straight)
    (hpackages : ∀ root ∈ roots, ∀ m, Manifest.ofFolder t root = .ok m →
      ∀ p ∈ m.folders root, p.Straight)
    (hfind : find t e kind roots = .ok r) (d : Dialect) :
    ∃ r', find t' e kind roots = .ok r' ∧ SameIn t d r r' := by
  obtain ⟨before, after, rfl, hrefound, hafter⟩ :=
    hgrows.find ht hnamed hnamed' hroots hpackages hfind
  obtain ⟨hstanding, hnew⟩ := hrefound.ofFound d
  refine ⟨_, hafter, ?_, fun root hroot hstands => (hnew root hroot hstands).2.2⟩
  rw [← hstanding, List.filter_filter]
  simp only [Bool.and_self]

/-- The same roots have the same candidates in a tree that has grown. -/
theorem discover (h : SameIn t d r r') (hgrows : t.Grows t') (ht : t.Closed)
    (hnamed : t.WellNamed) (hnamed' : t'.WellNamed) (w : Workspace) :
    Candidate.discover t' w d r' = Candidate.discover t w d r := by
  rw [Candidate.discover_grows hgrows ht hnamed hnamed' h.missing]
  exact Candidate.discover_congr h.standing

end NamespaceRoots.SameIn

end ComponentAtlas
