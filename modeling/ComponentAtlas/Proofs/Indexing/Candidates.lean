import ComponentAtlas.Indexing.Candidate
import ComponentAtlas.Proofs.Files.Reach

/-!
# Which files are candidates

A candidate is an entry file that stands in a folder below a namespace root, in a container that is
not excluded. When no container holds two files with an entry extension, every such file is one.
-/

namespace ComponentAtlas

open ComponentAtlas.Text

namespace Dialect

/-- The extensions of entry files stand for themselves in a file name. -/
theorem entryExtensions_plain (d : Dialect) :
    ∀ ext ∈ d.entryExtensions, ext ≠ "" ∧ '/' ∉ ext.toList ∧ '.' ∉ ext.toList := by
  cases d <;> decide

/-- The extensions of entry files that come before one of them. -/
def extensionsBefore (d : Dialect) (ext : String) : List String :=
  d.entryExtensions.takeWhile (· != ext)

/-- No extension is that of an entry file in both dialects. -/
theorem entryExtensions_disjoint {d e : Dialect} (hne : d ≠ e) :
    ∀ ext ∈ d.entryExtensions, ext ∉ e.entryExtensions := by
  cases d <;> cases e <;> first | exact absurd rfl hne | decide

end Dialect

/-- A plain name with an extension is plain. -/
theorem PlainName.withExtension {name ext : String} (h : PlainName name) (hne : ext ≠ "")
    (hslash : '/' ∉ ext.toList) : PlainName (name ++ "." ++ ext) := by
  have hlist : (name ++ "." ++ ext).toList = name.toList ++ '.' :: ext.toList := by simp
  refine ⟨?_, ?_⟩
  · have hname := List.length_pos_iff.mpr h.ne_nil
    have hext : 0 < ext.toList.length :=
      List.length_pos_iff.mpr fun hnil => hne (String.toList_eq_nil_iff.mp hnil)
    have hlength : 2 < (name ++ "." ++ ext).toList.length := by
      rw [hlist, List.length_append, List.length_cons]
      omega
    unfold Step.ofPiece?
    rw [if_neg, if_neg, String.ofList_toList]
    · intro hdots
      rw [hdots] at hlength
      exact absurd hlength (by decide)
    · rintro (hnil | hdot)
      · rw [hnil] at hlength
        exact absurd hlength (by decide)
      · rw [hdot] at hlength
        exact absurd hlength (by decide)
  · rw [hlist, List.mem_append, List.mem_cons]
    rintro (hname | hdot | hext)
    · exact h.noSlash hname
    · exact absurd hdot (by decide)
    · exact hslash hext

/-- The file that defines a component with an extension in a container below a root. -/
def Path.entryOf (root : Path) (name ext : String) : Path :=
  (root.join name).join (name ++ "." ++ ext)

namespace Path

theorem components_entryOf {root : Path} {name ext : String} (hname : PlainName name)
    (hfile : PlainName (name ++ "." ++ ext)) :
    (root.entryOf name ext).components =
      root.components ++ [.name name, .name (name ++ "." ++ ext)] := by
  rw [entryOf, components_join hfile, components_join hname, List.append_assoc]
  rfl

end Path

namespace Candidate

/-- A file that discovery takes for a candidate. -/
structure Stands (t : FileTree) (w : Workspace) (d : Dialect) (root : Path) (name ext : String)
    (c : Candidate) : Prop where
  plain : PlainName name
  extension : ext ∈ d.entryExtensions
  included : ¬w.exclusion.matchesName name = true
  path : c.path = root.entryOf name ext
  space : c.space = w.namespaceForRoot root d
  file : ∃ text, t.entry? c.path = .ok (.file text c.modifiedAt)

/-- The containers below a namespace root; an unreadable root has none. -/
def containers (t : FileTree) (w : Workspace) (root : Path) : List Path :=
  (NamespaceRoots.subfolders t w.exclusion root).toOption.getD []

/-- The file of a container that defines its component with an extension. -/
def fileIn (container : Path) (ext : String) : Path :=
  container.join (container.fileName?.getD "" ++ "." ++ ext)

/-- No container below the roots holds the entry files of two extensions. -/
def SingleEntry (t : FileTree) (w : Workspace) (d : Dialect) (r : NamespaceRoots) : Prop :=
  ∀ root ∈ r.forDialect d, ∀ container ∈ containers t w root,
    ∀ ext ∈ d.entryExtensions, ∀ ext' ∈ d.entryExtensions,
      t.isFile (fileIn container ext) = true → t.isFile (fileIn container ext') = true → ext = ext'

instance (t : FileTree) (w : Workspace) (d : Dialect) (r : NamespaceRoots) :
    Decidable (SingleEntry t w d r) := by
  unfold SingleEntry
  infer_instance

section Discovery

variable {t : FileTree} {w : Workspace} {d : Dialect} {r : NamespaceRoots}

namespace Stands

variable {root : Path} {name ext : String} {c : Candidate} (h : c.Stands t w d root name ext)
include h

theorem plainFile : PlainName (name ++ "." ++ ext) :=
  have hext := d.entryExtensions_plain ext h.extension
  h.plain.withExtension hext.1 hext.2.1

theorem components :
    c.path.components = root.components ++ [.name name, .name (name ++ "." ++ ext)] := by
  rw [h.path, Path.components_entryOf h.plain h.plainFile]

theorem isEntry : c.path.isEntry d.entryExtensions = true :=
  Path.isEntry_iff.mpr ⟨_, name, ext, h.extension,
    (d.entryExtensions_plain ext h.extension).2.2, h.components⟩

theorem stem? : c.path.stem? = some name := by
  have hsteps : c.path.components = (root.components ++ [.name name]) ++
      [.name (name ++ "." ++ ext)] := by
    rw [h.components]
    simp
  exact (Path.extension?_of_components h.plain.ne_nil
    (d.entryExtensions_plain ext h.extension).2.2 hsteps).1

/-- The folders on the way to a candidate. -/
theorem places : ∃ place text, t.reach root.components = some place ∧
    t.get? place = some .folder ∧ t.get? (place ++ [name]) = some .folder ∧
      t.get? ((place ++ [name]) ++ [name ++ "." ++ ext]) = some (.file text c.modifiedAt) := by
  obtain ⟨text, hfile⟩ := h.file
  obtain ⟨place, hplace, hget⟩ := FileTree.entry?_reach hfile
  have hsteps : c.path.components = (root.components ++ [.name name]) ++
      [.name (name ++ "." ++ ext)] := by
    rw [h.components]
    simp
  rw [hsteps, FileTree.reach_concat] at hplace
  obtain ⟨inner, hinner, hfolder, rfl⟩ := hplace
  obtain ⟨outer, houter, hroot, rfl⟩ := (FileTree.reach_concat _ _).mp hinner
  exact ⟨outer, text, houter, hroot, hfolder, hget⟩

end Stands

/-- The subfolders of a path are among the names at the place where its components lead. -/
theorem subfolders_eq_some {e : Exclusion} {folder : Path} {inner : List Path} :
    (NamespaceRoots.subfolders t e folder).toOption = some inner ↔
      ∃ here, t.reach folder.components = some here ∧ t.get? here = some .folder ∧
        ((t.namesAt here).map folder.join).filter
          (fun p => t.isFolder p && !e.excludes p) = inner := by
  unfold NamespaceRoots.subfolders
  cases hchildren : t.children folder with
  | error cause =>
      refine ⟨fun h => (nomatch h), fun ⟨here, hhere, hfolder, _⟩ => ?_⟩
      rw [FileTree.children_eq_ok.mpr ⟨here, hhere, hfolder, rfl⟩] at hchildren
      cases hchildren
  | ok paths =>
      obtain ⟨here, hhere, hfolder, rfl⟩ := FileTree.children_eq_ok.mp hchildren
      constructor
      · intro h
        exact ⟨here, hhere, hfolder, Option.some.inj h⟩
      · rintro ⟨other, hother, -, rfl⟩
        obtain rfl : here = other := Option.some.inj (hhere.symm.trans hother)
        rfl

/-- A subfolder is a plain name that is not excluded, where a folder stands. -/
theorem mem_subfolders (ht : t.WellNamed) {e : Exclusion} {root folder : Path} {inner : List Path}
    (h : NamespaceRoots.subfolders t e root = .ok inner) (hmem : folder ∈ inner) :
    ∃ name, PlainName name ∧ ¬e.matchesName name = true ∧ t.isFolder folder = true ∧
      folder = root.join name := by
  have hsome : (NamespaceRoots.subfolders t e root).toOption = some inner := by rw [h]; rfl
  obtain ⟨place, -, -, rfl⟩ := subfolders_eq_some.mp hsome
  obtain ⟨hchild, hkeep⟩ := List.mem_filter.mp hmem
  obtain ⟨name, hname, rfl⟩ := List.mem_map.mp hchild
  have hplain := ht.plain hname
  rw [Bool.and_eq_true, Bool.not_eq_true'] at hkeep
  refine ⟨name, hplain, ?_, hkeep.1, rfl⟩
  have hexcluded := hkeep.2
  rw [Exclusion.excludes, Path.fileName?_of_components (Path.components_join hplain)] at hexcluded
  simpa using hexcluded

theorem subfolder_of_place {e : Exclusion} {root : Path} {place : Place} {name : String}
    (hname : PlainName name) (hincluded : ¬e.matchesName name = true)
    (hplace : t.reach root.components = some place) (hroot : t.get? place = some .folder)
    (hfolder : t.get? (place ++ [name]) = some .folder) :
    ∃ inner, NamespaceRoots.subfolders t e root = .ok inner ∧ root.join name ∈ inner := by
  have hchildren := FileTree.children_eq_ok.mpr ⟨place, hplace, hroot, rfl⟩
  refine ⟨_, by rw [NamespaceRoots.subfolders, hchildren]; rfl, ?_⟩
  rw [List.mem_filter, List.mem_map]
  refine ⟨⟨name, FileTree.mem_namesAt_of_get? hfolder, rfl⟩, ?_⟩
  have hinner := (FileTree.isFolder_join_iff hplace hroot hname).mpr hfolder
  rw [Exclusion.excludes, Path.fileName?_of_components (Path.components_join hname)]
  simp [hinner, hincluded]

/-- The entry file of a folder is named like it and stands in it, and no file with an earlier
extension does so. -/
theorem entryFile?_eq_some_iff {folder : Path} {name : String}
    (hname : folder.fileName? = some name) {found : Path × Nat} :
    entryFile? t d folder = some found ↔
      ∃ ext ∈ d.entryExtensions, found.1 = folder.join (name ++ "." ++ ext) ∧
        (∃ text, t.entry? found.1 = .ok (.file text found.2)) ∧
        ∀ earlier ∈ d.extensionsBefore ext,
          ¬t.isFile (folder.join (name ++ "." ++ earlier)) = true := by
  rw [entryFile?, hname, Option.bind_some]
  unfold Dialect.extensionsBefore
  generalize d.entryExtensions = extensions
  induction extensions with
  | nil => simp
  | cons first rest ih =>
      rw [List.findSome?_cons]
      by_cases hfirst : t.isFile (folder.join (name ++ "." ++ first)) = true
      · obtain ⟨text, time, hentry⟩ := FileTree.isFile_iff.mp hfirst
        simp only [hfirst, if_true, FileTree.modifiedAt?_of_file hentry, Option.map_some,
          Option.some.injEq]
        constructor
        · rintro rfl
          exact ⟨first, List.mem_cons_self, rfl, ⟨text, hentry⟩, by simp⟩
        · rintro ⟨ext, -, hpath, ⟨text', hentry'⟩, hnone⟩
          -- the first extension stands, so none is taken before it
          obtain rfl : first = ext := by
            by_contra hne
            refine hnone first ?_ hfirst
            rw [List.takeWhile_cons_of_pos (by simpa using hne)]
            exact List.mem_cons_self
          rw [hpath, hentry] at hentry'
          cases hentry'
          exact Prod.ext hpath.symm rfl
      · simp only [hfirst]
        have hskip : ∀ ext ≠ first,
            (first :: rest).takeWhile (· != ext) = first :: rest.takeWhile (· != ext) :=
          fun ext hne => List.takeWhile_cons_of_pos (by simpa using hne.symm)
        refine ih.trans ⟨?_, ?_⟩
        · rintro ⟨ext, hext, hpath, hentry, hnone⟩
          have hne : ext ≠ first := by
            rintro rfl
            exact hfirst (hpath ▸ FileTree.isFile_iff.mpr ⟨_, _, hentry.choose_spec⟩)
          refine ⟨ext, List.mem_cons_of_mem _ hext, hpath, hentry, ?_⟩
          rw [hskip ext hne]
          exact List.forall_mem_cons.mpr ⟨hfirst, hnone⟩
        · rintro ⟨ext, hext, hpath, hentry, hnone⟩
          have hne : ext ≠ first := by
            rintro rfl
            exact hfirst (hpath ▸ FileTree.isFile_iff.mpr ⟨_, _, hentry.choose_spec⟩)
          rw [hskip ext hne] at hnone
          exact ⟨ext, (List.mem_cons.mp hext).resolve_left hne, hpath, hentry,
            (List.forall_mem_cons.mp hnone).2⟩

/-- Two trees that agree on the files named like a folder give it the same entry file. -/
theorem entryFile?_eq_of_files {t' : FileTree} {folder : Path}
    (hfiles : ∀ name, folder.fileName? = some name → ∀ ext ∈ d.entryExtensions,
      t'.isFile (folder.join (name ++ "." ++ ext)) =
          t.isFile (folder.join (name ++ "." ++ ext)) ∧
        (t.isFile (folder.join (name ++ "." ++ ext)) = true →
          t'.modifiedAt? (folder.join (name ++ "." ++ ext)) =
            t.modifiedAt? (folder.join (name ++ "." ++ ext)))) :
    entryFile? t' d folder = entryFile? t d folder := by
  unfold entryFile?
  cases hname : folder.fileName? with
  | none => rfl
  | some name =>
      specialize hfiles name hname
      rw [Option.bind_some, Option.bind_some]
      generalize d.entryExtensions = extensions at hfiles
      induction extensions with
      | nil => rfl
      | cons first rest ih =>
          obtain ⟨hfile, htime⟩ := hfiles first List.mem_cons_self
          rw [List.findSome?_cons, List.findSome?_cons,
            ih fun ext hext => hfiles ext (List.mem_cons_of_mem _ hext)]
          dsimp only
          rw [hfile]
          by_cases hstands : t.isFile (folder.join (name ++ "." ++ first)) = true
          · rw [htime hstands]
          · simp only [hstands]
            rfl

theorem mem_inRoot_of_first {root : Path} {name ext : String} {c : Candidate}
    (h : c.Stands t w d root name ext) (hfirst : ∀ earlier ∈ d.extensionsBefore ext,
      ¬t.isFile (root.entryOf name earlier) = true) : c ∈ inRoot t w d root := by
  obtain ⟨place, -, hplace, hfolder, hcontainer, -⟩ := h.places
  obtain ⟨inner, hsub, hmem⟩ := subfolder_of_place h.plain h.included hplace hfolder hcontainer
  have hentry : entryFile? t d (root.join name) = some (c.path, c.modifiedAt) :=
    (entryFile?_eq_some_iff (Path.fileName?_of_components (Path.components_join h.plain))).mpr
      ⟨ext, h.extension, h.path, h.file, hfirst⟩
  rw [inRoot, hsub]
  refine List.mem_filterMap.mpr ⟨root.join name, hmem, ?_⟩
  rw [hentry, Option.map_some, ← h.space]

/-- The candidates of a root are the files that stand below it without an earlier one beside
them. -/
theorem mem_inRoot_iff (ht : t.WellNamed) {root : Path} {c : Candidate} :
    c ∈ inRoot t w d root ↔ ∃ name ext, c.Stands t w d root name ext ∧
      ∀ earlier ∈ d.extensionsBefore ext, ¬t.isFile (root.entryOf name earlier) = true := by
  refine ⟨fun hc => ?_, fun ⟨name, ext, h, hfirst⟩ => mem_inRoot_of_first h hfirst⟩
  unfold inRoot at hc
  split at hc
  · cases hc
  · next inner hinner =>
      obtain ⟨folder, hfolder, hentry⟩ := List.mem_filterMap.mp hc
      obtain ⟨found, hfound, rfl⟩ := Option.map_eq_some_iff.mp hentry
      obtain ⟨name, hname, hincluded, -, rfl⟩ := mem_subfolders ht hinner hfolder
      obtain ⟨ext, hext, hpath, hfile, hfirst⟩ := (entryFile?_eq_some_iff
        (Path.fileName?_of_components (Path.components_join hname))).mp hfound
      exact ⟨name, ext, ⟨hname, hext, hincluded, hpath, rfl, hfile⟩, hfirst⟩

/-- The candidates of a root are files that stand below it. -/
theorem stands_of_mem_inRoot (ht : t.WellNamed) {root : Path} {c : Candidate}
    (hc : c ∈ inRoot t w d root) : ∃ name ext, c.Stands t w d root name ext := by
  obtain ⟨name, ext, h, -⟩ := (mem_inRoot_iff ht).mp hc
  exact ⟨name, ext, h⟩

/-- Discovery finds files that stand below a root. -/
theorem stands_of_mem_discover (ht : t.WellNamed) {c : Candidate} (hc : c ∈ discover t w d r) :
    ∃ root ∈ r.forDialect d, ∃ name ext, c.Stands t w d root name ext := by
  obtain ⟨root, hroot, hmem⟩ := List.mem_flatMap.mp hc
  exact ⟨root, hroot, stands_of_mem_inRoot ht hmem⟩

/-- A file that stands below a root is found, if its container holds no other entry file. -/
theorem mem_discover_of_stands (hsingle : SingleEntry t w d r) {root : Path}
    (hroot : root ∈ r.forDialect d) {name ext : String} {c : Candidate}
    (h : c.Stands t w d root name ext) : c ∈ discover t w d r := by
  obtain ⟨place, -, hplace, hfolder, hinner, -⟩ := h.places
  obtain ⟨inner, hsub, hmem⟩ := subfolder_of_place h.plain h.included hplace hfolder hinner
  obtain ⟨text, hfile⟩ := h.file
  rw [h.path] at hfile
  have hcontainer : root.join name ∈ containers t w root := by
    rw [containers, hsub]
    exact hmem
  refine List.mem_flatMap.mpr ⟨root, hroot, mem_inRoot_of_first h ?_⟩
  intro earlier hearlier hisFile
  have honly := hsingle root hroot _ hcontainer earlier (List.takeWhile_subset _ hearlier) ext
    h.extension
  rw [fileIn, fileIn, Path.fileName?_of_components (Path.components_join h.plain),
    Option.getD_some] at honly
  have hsame := honly hisFile (FileTree.isFile_iff.mpr ⟨text, c.modifiedAt, hfile⟩)
  exact ne_of_beq_false (by simpa using List.mem_takeWhile_imp hearlier) hsame

/-- An entry file below a known root, under any spelling and outside of the excluded containers,
stands for a candidate of the same place. -/
theorem stands_of_file {p g : Path} {text : Option String} {time : Nat}
    (hentry : p.isEntry d.entryExtensions = true) (hgrand : p.grandparent? = some g)
    {root : Path} (hroot : g.components = root.components)
    (hincluded : ∀ folder ∈ p.parent?, ¬w.exclusion.excludes folder = true)
    (hfile : t.entry? p = .ok (.file text time)) :
    ∃ name ext, Stands t w d root name ext
        ⟨root.entryOf name ext, w.namespaceForRoot g d, time⟩ ∧
      p.components = (root.entryOf name ext).components := by
  obtain ⟨steps, name, ext, hext, hdot, hcomponents⟩ := Path.isEntry_iff.mp hentry
  have hplain : PlainName name :=
    Path.plainName_of_mem_components (p := p) (by rw [hcomponents]; simp)
  have hfileName : PlainName (name ++ "." ++ ext) :=
    Path.plainName_of_mem_components (p := p) (by rw [hcomponents]; simp)
  obtain ⟨outer, houter, hsteps⟩ := Path.components_grandparent? hcomponents
  obtain rfl : outer = g := Option.some.inj (houter.symm.trans hgrand)
  have hsame : p.components = (root.entryOf name ext).components := by
    rw [Path.components_entryOf hplain hfileName, ← hroot, hsteps, hcomponents]
  refine ⟨name, ext, ⟨hplain, hext, ?_, rfl, ?_, text, ?_⟩, hsame⟩
  · have hsplit : p.components = (steps ++ [.name name]) ++ [.name (name ++ "." ++ ext)] := by
      rw [hcomponents]
      simp
    obtain ⟨folder, hparent, hfolder⟩ := Path.components_parent? hsplit
    have hnot := hincluded folder hparent
    rw [Exclusion.excludes, Path.fileName?_of_components hfolder] at hnot
    simpa using hnot
  · simp only [Workspace.namespaceForRoot, Path.fileName?_congr hroot]
  · exact FileTree.entry?_join_of_same hfileName hsame hfile

/-- Folders with the same components have the same entry file, each under its own spelling. -/
theorem entryFile?_congr {folder other : Path} (hsame : folder.components = other.components)
    {found : Path × Nat} (h : entryFile? t d folder = some found) :
    ∃ found', entryFile? t d other = some found' ∧
      found'.1.components = found.1.components ∧ found'.2 = found.2 := by
  have hnames : folder.fileName? = other.fileName? := Path.fileName?_congr hsame
  unfold entryFile? at h ⊢
  cases hname : other.fileName? with
  | none =>
      rw [hnames, hname] at h
      cases h
  | some name =>
      rw [hnames, hname, Option.bind_some] at h
      rw [Option.bind_some]
      obtain ⟨steps, hsteps⟩ := Path.components_of_fileName? hname
      have hplain : PlainName name :=
        Path.plainName_of_mem_components (p := other) (by simp [hsteps])
      have hfiles : ∀ ext ∈ d.entryExtensions,
          (other.join (name ++ "." ++ ext)).components =
              (folder.join (name ++ "." ++ ext)).components ∧
            ∀ e, t.entry? (folder.join (name ++ "." ++ ext)) = .ok e ↔
              t.entry? (other.join (name ++ "." ++ ext)) = .ok e := by
        intro ext hext
        obtain ⟨hne, hslash, -⟩ := d.entryExtensions_plain ext hext
        have hfile := hplain.withExtension hne hslash
        have hsteps : (other.join (name ++ "." ++ ext)).components =
            (folder.join (name ++ "." ++ ext)).components := by
          rw [Path.components_join hfile, Path.components_join hfile, hsame]
        refine ⟨hsteps, fun e => ?_⟩
        rw [FileTree.entry?_join_iff hfile, FileTree.entry?_join_iff hfile, hsteps]
      generalize d.entryExtensions = extensions at h hfiles
      induction extensions with
      | nil => cases h
      | cons first rest ih =>
          obtain ⟨hsteps, hentry⟩ := hfiles first List.mem_cons_self
          rw [List.findSome?_cons] at h ⊢
          by_cases hfile : t.isFile (folder.join (name ++ "." ++ first)) = true
          · obtain ⟨text, time, hfound⟩ := FileTree.isFile_iff.mp hfile
            have hfound' := (hentry _).mp hfound
            have hfile' := FileTree.isFile_iff.mpr ⟨text, time, hfound'⟩
            simp only [hfile, if_true, FileTree.modifiedAt?_of_file hfound, Option.map_some] at h
            obtain rfl := Option.some.inj h
            refine ⟨(other.join (name ++ "." ++ first), time), ?_, hsteps, rfl⟩
            simp only [hfile', if_true, FileTree.modifiedAt?_of_file hfound', Option.map_some]
          · have hfile' : ¬t.isFile (other.join (name ++ "." ++ first)) = true := by
              rw [FileTree.isFile_iff] at hfile ⊢
              rintro ⟨text, time, hfound'⟩
              exact hfile ⟨text, time, (hentry _).mpr hfound'⟩
            simp only [hfile] at h
            simp only [hfile']
            exact ih h fun ext hext => hfiles ext (List.mem_cons_of_mem _ hext)

/-- Roots with the same components have the same candidates, each under its own spelling. -/
theorem inRoot_congr (ht : t.WellNamed) {root other : Path}
    (hsame : root.components = other.components) {c : Candidate} (hc : c ∈ inRoot t w d root) :
    ∃ c' ∈ inRoot t w d other, c'.path.components = c.path.components ∧ c'.space = c.space ∧
      c'.modifiedAt = c.modifiedAt := by
  unfold inRoot at hc
  split at hc
  · cases hc
  · next inner hinner =>
      obtain ⟨folder, hfolder, hentry⟩ := List.mem_filterMap.mp hc
      obtain ⟨found, hfound, rfl⟩ := Option.map_eq_some_iff.mp hentry
      obtain ⟨name, hname, hincluded, hisFolder, rfl⟩ := mem_subfolders ht hinner hfolder
      obtain ⟨outer, houter, hroot, hget⟩ :=
        FileTree.entry?_join_reach hname (FileTree.isFolder_iff.mp hisFolder)
      obtain ⟨inner', hinner', hmem⟩ :=
        subfolder_of_place hname hincluded (hsame ▸ houter) hroot hget
      have hjoined : (root.join name).components = (other.join name).components := by
        rw [Path.components_join hname, Path.components_join hname, hsame]
      obtain ⟨found', hfound', hpath, htime⟩ := entryFile?_congr hjoined hfound
      refine ⟨⟨found'.1, w.namespaceForRoot other d, found'.2⟩, ?_, hpath, ?_, htime⟩
      · rw [inRoot, hinner']
        refine List.mem_filterMap.mpr ⟨other.join name, hmem, ?_⟩
        rw [hfound', Option.map_some]
      · simp only [Workspace.namespaceForRoot, Path.fileName?_congr hsame]

end Discovery

end Candidate

end ComponentAtlas
