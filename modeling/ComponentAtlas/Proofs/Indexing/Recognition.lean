import ComponentAtlas.Proofs.Indexing.ApartRoots
import ComponentAtlas.Proofs.Path.Endings

/-!
# What discovery lists is what a path tells

Discovery builds the names of files from those of their folders, and a filter on paths takes the
names apart again. Both recognise the same files: a path is listed below a root exactly when it is
that of an entry file in a container there, and no better entry file stands beside it. It is then
listed once.
-/

namespace ComponentAtlas

namespace FileTree

variable {t : FileTree} {p q : Path} {name : String}

/-- A path that leads to a file under one of its spellings; with a slash behind it, the name of a
file leads nowhere. -/
def HasFile (t : FileTree) (p : Path) : Prop :=
  ∃ q : Path, q.same p = true ∧ t.isFile q = true

theorem HasFile.congr (h : p.components = q.components) : t.HasFile p ↔ t.HasFile q :=
  exists_congr fun r => by rw [r.same_comm p, r.same_comm q, Path.same_congr_left h]

/-- A path that ends with its name leads to its file. -/
theorem hasFile_join (hname : PlainName name) :
    t.HasFile (p.join name) ↔ t.isFile (p.join name) = true := by
  refine ⟨fun ⟨q, hsame, hfile⟩ => ?_, fun h => ⟨_, Path.same_refl _, h⟩⟩
  obtain ⟨text, time, hentry⟩ := isFile_iff.mp hfile
  exact isFile_iff.mpr ⟨text, time, entry?_join_of_same hname (Path.same_iff.mp hsame) hentry⟩

end FileTree

namespace Candidate

/-- The path of an entry file in a container below a root, as it can be told from the path and from
the files that stand in the container. -/
structure Recognised (t : FileTree) (w : Workspace) (d : Dialect) (root p : Path) : Prop where
  entry : p.isEntry d.entryExtensions = true
  below : ∃ outer ∈ p.grandparent?, outer.same root = true
  readable : (t.children root).isOk = true
  container : ∃ folder ∈ p.parent?, t.isFolder folder = true ∧ ¬w.exclusion.excludes folder = true
  file : t.HasFile p
  first : ∀ q : Path, q.Beside p → q.stem? = p.stem? →
    (∃ ext ∈ p.extension?, ∃ earlier ∈ d.extensionsBefore ext, q.extension? = some earlier) →
      ¬t.HasFile q

section Recognition

variable {t : FileTree} {w : Workspace} {d : Dialect} {r : NamespaceRoots} {root p : Path}

theorem plainName_of_before {name ext earlier : String} (hname : PlainName name)
    (h : earlier ∈ d.extensionsBefore ext) : PlainName (name ++ "." ++ earlier) :=
  have hplain := d.entryExtensions_plain earlier (List.takeWhile_subset _ h)
  hname.withExtension hplain.1 hplain.2.1

/-- What is recognised below a root is listed there. -/
theorem Recognised.mem_inRoot (h : Recognised t w d root p) :
    ∃ c ∈ inRoot t w d root, c.path.same p = true := by
  obtain ⟨steps, name, ext, hext, hdot, hsteps⟩ := Path.isEntry_iff.mp h.entry
  have hsplit : p.components = (steps ++ [.name name]) ++ [.name (name ++ "." ++ ext)] := by
    rw [hsteps]
    simp
  have hname : PlainName name := Path.plainName_of_mem_components (p := p) (by simp [hsteps])
  have hfile : PlainName (name ++ "." ++ ext) :=
    Path.plainName_of_mem_components (p := p) (by simp [hsteps])
  have hincluded : ¬w.exclusion.matchesName name = true := by
    obtain ⟨folder, hfolder, -, hnot⟩ := h.container
    obtain ⟨parent, hparent, hcomponents⟩ := Path.components_parent? hsplit
    obtain rfl : parent = folder := Option.some.inj (hparent.symm.trans hfolder)
    rw [Exclusion.excludes, Path.fileName?_of_components hcomponents] at hnot
    simpa using hnot
  obtain rfl : steps = root.components := by
    obtain ⟨outer, houter, hsame⟩ := h.below
    obtain ⟨grand, hgrand, rfl⟩ := Path.components_grandparent? hsteps
    obtain rfl : grand = outer := Option.some.inj (hgrand.symm.trans houter)
    exact Path.same_iff.mp hsame
  have hsame : (root.entryOf name ext).components = p.components := by
    rw [Path.components_entryOf hname hfile, hsteps]
  obtain ⟨text, time, hentry⟩ :=
    FileTree.isFile_iff.mp ((FileTree.hasFile_join hfile).mp ((FileTree.HasFile.congr hsame).mpr
      h.file))
  refine ⟨⟨root.entryOf name ext, w.namespaceForRoot root d, time⟩, ?_, Path.same_iff.mpr hsame⟩
  refine mem_inRoot_of_first ⟨hname, hext, hincluded, rfl, rfl, text, hentry⟩ ?_
  intro earlier hearlier hstands
  have hother := plainName_of_before hname hearlier
  have hbefore : (root.entryOf name earlier).components =
      (root.components ++ [.name name]) ++ [.name (name ++ "." ++ earlier)] := by
    rw [Path.components_entryOf hname hother]
    simp
  obtain ⟨hstem, hext'⟩ := Path.extension?_of_components hname.ne_nil hdot hsplit
  obtain ⟨hstem', hearlier'⟩ := Path.extension?_of_components hname.ne_nil
    (d.entryExtensions_plain earlier (List.takeWhile_subset _ hearlier)).2.2 hbefore
  exact h.first _ ((Path.beside_iff hbefore hsplit).mpr rfl) (hstem'.trans hstem.symm)
    ⟨ext, hext', earlier, hearlier, hearlier'⟩ ((FileTree.hasFile_join hother).mpr hstands)

/-- What is listed below a root is recognised there, under any of its spellings. -/
theorem recognised_of_mem (ht : t.WellNamed) {c : Candidate} (hc : c ∈ inRoot t w d root)
    (hsame : c.path.same p = true) : Recognised t w d root p := by
  obtain ⟨name, ext, h, hfirst⟩ := (mem_inRoot_iff ht).mp hc
  have hsteps := (Path.same_iff.mp hsame).symm.trans h.components
  have hsplit : p.components =
      (root.components ++ [.name name]) ++ [.name (name ++ "." ++ ext)] := by
    rw [hsteps]
    simp
  obtain ⟨place, text, hplace, hroot, hcontainer, -⟩ := h.places
  refine ⟨?_, ?_, ?_, ?_, ?_, ?_⟩
  · rw [← Path.isEntry_congr (Path.same_iff.mp hsame)]
    exact h.isEntry
  · obtain ⟨outer, houter, hcomponents⟩ := Path.components_grandparent? hsteps
    exact ⟨outer, houter, Path.same_iff.mpr hcomponents⟩
  · rw [FileTree.children_eq_ok.mpr ⟨place, hplace, hroot, rfl⟩]
    rfl
  · obtain ⟨folder, hfolder, hcomponents⟩ := Path.components_parent? hsplit
    refine ⟨folder, hfolder, FileTree.isFolder_iff.mpr (FileTree.entry?_folder_iff.mpr
      ⟨place ++ [name], ?_, hcontainer⟩), ?_⟩
    · rw [hcomponents]
      exact (FileTree.reach_concat _ _).mpr ⟨place, hplace, hroot, rfl⟩
    · rw [Exclusion.excludes, Path.fileName?_of_components hcomponents]
      simpa using h.included
  · obtain ⟨text, hfile⟩ := h.file
    exact ⟨c.path, hsame, FileTree.isFile_iff.mpr ⟨text, _, hfile⟩⟩
  · rintro q hbeside hstem ⟨ext', hext', earlier, hearlier, hext⟩ hfile
    obtain ⟨hstem', hext''⟩ := Path.extension?_of_components h.plain.ne_nil
      (d.entryExtensions_plain ext h.extension).2.2 hsplit
    obtain rfl : ext = ext' := Option.some.inj (hext''.symm.trans hext')
    obtain ⟨steps, hq⟩ := Path.components_of_stem? (hstem.trans hstem') hext
    obtain rfl := (Path.beside_iff hq hsplit).mp hbeside
    have hother := plainName_of_before h.plain hearlier
    have hentry : q.components = (root.entryOf name earlier).components := by
      rw [hq, Path.components_entryOf h.plain hother]
      simp
    exact hfirst earlier hearlier
      ((FileTree.hasFile_join hother).mp ((FileTree.HasFile.congr hentry).mp hfile))

/-- Different roots have different candidates, and so have different containers. -/
theorem discover_pairwise (ht : t.WellNamed) (hdistinct : t.Distinct)
    (hroots : (r.forDialect d).Pairwise fun root other => ¬root.same other = true) :
    (discover t w d r).Pairwise fun c c' => ¬c.path.same c'.path = true := by
  refine List.pairwise_flatMap.mpr ⟨fun root _ => ?_, hroots.imp ?_⟩
  · refine (inRoot_apart ht hdistinct root).imp fun hapart hsame => ?_
    exact hapart.place_ne (Path.place_congr (Path.same_iff.mp hsame))
  · intro root other hne c hc c' hc' hsame
    obtain ⟨name, ext, h⟩ := stands_of_mem_inRoot ht hc
    obtain ⟨name', ext', h'⟩ := stands_of_mem_inRoot ht hc'
    have hsteps := Path.same_iff.mp hsame
    rw [h.components, h'.components] at hsteps
    exact hne (Path.same_iff.mpr (List.append_inj_left' hsteps rfl))

/-- A path is listed exactly when it is recognised below one of the roots. It is then listed once,
with the namespace of that root and the time of its file. A file that is not named like its folder
is never listed. -/
theorem discover_recognises (ht : t.WellNamed) (hdistinct : t.Distinct) (w : Workspace)
    (hroots : (r.forDialect d).Pairwise fun root other => ¬root.same other = true) (p : Path) :
    ((∃ c ∈ discover t w d r, c.path.same p = true) ↔
      ∃ root ∈ r.forDialect d, Recognised t w d root p) ∧
    (∀ root ∈ r.forDialect d, Recognised t w d root p →
      ∃ c, (discover t w d r).filter (fun c => c.path.same p) = [c] ∧
        c.space = w.namespaceForRoot root d ∧ t.modifiedAt? c.path = some c.modifiedAt) ∧
    ∀ folder name stem, p.parent? = some folder → folder.fileName? = some name →
      p.stem? = some stem → stem ≠ name → ∀ c ∈ discover t w d r, ¬c.path.same p = true := by
  refine ⟨⟨?_, ?_⟩, ?_, ?_⟩
  · rintro ⟨c, hc, hsame⟩
    obtain ⟨root, hroot, hmem⟩ := List.mem_flatMap.mp hc
    exact ⟨root, hroot, recognised_of_mem ht hmem hsame⟩
  · rintro ⟨root, hroot, h⟩
    obtain ⟨c, hc, hsame⟩ := h.mem_inRoot
    exact ⟨c, List.mem_flatMap.mpr ⟨root, hroot, hc⟩, hsame⟩
  · intro root hroot h
    obtain ⟨c, hc, hsame⟩ := h.mem_inRoot
    obtain ⟨name, ext, hstands⟩ := stands_of_mem_inRoot ht hc
    obtain ⟨text, hfile⟩ := hstands.file
    exact ⟨c, Path.filter_same_eq Candidate.path (discover_pairwise ht hdistinct hroots)
      (List.mem_flatMap.mpr ⟨root, hroot, hc⟩) hsame, hstands.space,
      FileTree.modifiedAt?_of_file hfile⟩
  · intro folder name stem hparent hname hstem hne c hc hsame
    obtain ⟨root, -, own, ext, h⟩ := stands_of_mem_discover ht hc
    have hcomponents := (Path.same_iff.mp hsame).symm.trans h.components
    have hsplit : p.components =
        (root.components ++ [.name own]) ++ [.name (own ++ "." ++ ext)] := by
      rw [hcomponents]
      simp
    obtain ⟨outer, houter, hsteps⟩ := Path.components_parent? hsplit
    obtain rfl : outer = folder := Option.some.inj (houter.symm.trans hparent)
    rw [Path.fileName?_of_components hsteps, Option.some.injEq] at hname
    rw [← Path.stem?_congr (Path.same_iff.mp hsame), h.stem?, Option.some.injEq] at hstem
    exact hne (hstem.symm.trans hname)

/-- Of two scripts in a container the one that comes first is recognised, and only that one. -/
theorem discover_recognises_scripts :
    let t := (FileTree.empty.plant ⟨"/ws/lwc/foo/foo.ts"⟩ (.file none 1)).plant
      ⟨"/ws/lwc/foo/foo.js"⟩ (.file none 2)
    let w := Workspace.load t [⟨"/ws"⟩]
    let r : NamespaceRoots := ⟨[⟨"/ws/lwc"⟩], []⟩
    (∃ c, (discover t w .lwc r).filter (fun c => c.path.same ⟨"/ws/lwc/foo/foo.js"⟩) = [c] ∧
      c.space = w.namespaceForRoot ⟨"/ws/lwc"⟩ .lwc ∧ t.modifiedAt? c.path = some c.modifiedAt) ∧
    ¬∃ root ∈ r.forDialect .lwc, Recognised t w .lwc root ⟨"/ws/lwc/foo/foo.ts"⟩ := by
  intro t w r
  have hnamed : t.WellNamed := by decide +kernel
  have hdistinct : t.Distinct := (FileTree.Distinct.empty.plant _ _).plant _ _
  have hroots : (r.forDialect .lwc).Pairwise fun root other => ¬root.same other = true :=
    List.pairwise_singleton _ _
  obtain ⟨hlisted, honce, -⟩ := discover_recognises hnamed hdistinct w hroots ⟨"/ws/lwc/foo/foo.js"⟩
  obtain ⟨hother, -, -⟩ := discover_recognises hnamed hdistinct w hroots ⟨"/ws/lwc/foo/foo.ts"⟩
  obtain ⟨root, hroot, h⟩ := hlisted.mp (by decide +kernel)
  obtain rfl := List.mem_singleton.mp hroot
  exact ⟨honce _ hroot h, fun hrecognised => absurd (hother.mpr hrecognised) (by decide +kernel)⟩

end Recognition

end Candidate

end ComponentAtlas
