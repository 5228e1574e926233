import ComponentAtlas.Proofs.Files.Ways
import ComponentAtlas.Proofs.Session.StaleRoots

/-!
# Module configurations that are new

A module configuration that is missing is written with the generated data and nothing else, whatever
was written before it, if the files before it belong to roots that lead nowhere near. What is
written after it leaves it as it is.
-/

namespace ComponentAtlas

open ComponentAtlas.Json

namespace Path

theorem Aside.apart {p q : Path} (h : p.Aside q) : p.Apart q :=
  ⟨h.1 _ q.place_mem_way, h.2 _ p.place_mem_way⟩

/-- Between paths without a step upwards it is enough that neither place lies in the other. -/
theorem Straight.aside_iff_apart {p q : Path} (hp : p.Straight) (hq : q.Straight) :
    p.Aside q ↔ p.Apart q := by
  refine ⟨Aside.apart, fun h => ⟨fun place hplace hlies => ?_, fun place hplace hlies => ?_⟩⟩
  · exact h.1 (hlies.trans (hq.prefix_of_mem_way hplace))
  · exact h.2 (hlies.trans (hp.prefix_of_mem_way hplace))

end Path

namespace DerivedConfig

/-- The files of a target stand in its folder. -/
theorem Target.folder_prefix {x : Target} {f : Path} (hf : f ∈ x.files) :
    x.folder.place <+: f.place := by
  obtain ⟨name, hname, rfl⟩ := join_of_mem_files hf
  exact Path.place_prefix_join hname

section Beside

variable {t : FileTree} {xs : List Target} {root : Path} {place : Place}

/-- Merging data into a file changes nothing beside the file and the way of its folder. -/
theorem get?_mergeInto {p : Path} {name : String} (hname : PlainName name)
    (hne : place ≠ (p.join name).place) (hway : place ∉ p.way) (data : Value) :
    (mergeInto t (p.join name) data).1.get? place = t.get? place := by
  unfold mergeInto
  split
  · rfl
  · rfl
  · next v hplan =>
      obtain ⟨folder, hfolder, hsame⟩ :=
        Path.components_parent? (Path.components_join (p := p) hname)
      unfold writeFile makeParent
      rw [hfolder]
      dsimp only
      cases hmake : t.createFolders folder with
      | error cause => rfl
      | ok made =>
          have hmade := FileTree.get?_createFolders hmake (Path.way_congr hsame ▸ hway)
          dsimp only
          cases hwrite : made.write (p.join name) (v.pretty ++ "\n") with
          | error cause => exact hmade
          | ok t' =>
              obtain ⟨rfl, -⟩ := FileTree.write_eq_ok hwrite
              exact (FileTree.get?_put_of_ne hne).trans hmade

theorem get?_foldl_addTarget (data : Target → Value)
    (h : ∀ x ∈ xs, place ∉ x.folder.way ∧ ∀ f ∈ x.files, place ≠ f.place) (report : ConfigReport) :
    (xs.foldl (addTarget data) (t, report)).1.get? place = t.get? place := by
  induction xs generalizing t report with
  | nil => rfl
  | cons x xs ih =>
      obtain ⟨⟨hway, hfiles⟩, hrest⟩ := List.forall_mem_cons.mp h
      obtain ⟨name, hname, hfile⟩ := Target.join_of_mem_files (x.file_mem_files t)
      have hne := hfiles _ (x.file_mem_files t)
      rw [hfile] at hne
      rw [List.foldl_cons]
      refine (ih hrest _).trans ?_
      change (mergeInto t (x.file t) (data x)).1.get? place = _
      rw [hfile]
      exact get?_mergeInto hname hne hway _

end Beside

section Fresh

variable {t : FileTree} {root : Path} {front back : List Target} {data : Target → Value}
  {fields : Fields}

/-- A missing module configuration is the one without types, and nothing stands in its place. -/
theorem missing_modules (ht : t.Closed) (hroot : t.Anchored root)
    (hmissing : t.entry? (moduleFile t root) = .error .notFound) :
    moduleFile t root = root.join "jsconfig.json" ∧
      t.get? (root.join "tsconfig.json").place = none ∧
        t.get? (root.join "jsconfig.json").place = none := by
  have hnot : ¬t.holds (root.join "tsconfig.json") = true := by
    intro hholds
    rw [moduleFile, if_pos hholds] at hmissing
    rw [FileTree.holds, hmissing] at hholds
    cases hholds
  have hfile : moduleFile t root = root.join "jsconfig.json" := if_neg hnot
  rw [hfile] at hmissing
  exact ⟨hfile, FileTree.get?_beside_missing ht hroot (by decide) (by decide) hmissing hnot,
    (hroot.vacant_join ht (by decide) hmissing).get?_place ht⟩

/-- The files of some targets leave the files of a root alone to which no folder of theirs
leads. -/
theorem get?_join_foldl (data : Target → Value) (hroot : ∀ x ∈ front, x.folder.Aside root)
    {name : String} (hname : PlainName name) (report : ConfigReport) :
    (front.foldl (addTarget data) (t, report)).1.get? (root.join name).place =
      t.get? (root.join name).place := by
  have hbelow : root.place <+: (root.join name).place := Path.place_prefix_join hname
  refine get?_foldl_addTarget data (fun x hx => ⟨fun hway => ?_, fun f hf heq => ?_⟩) report
  · exact (hroot x hx).2 _ hway hbelow
  · have hapart := (hroot x hx).apart.inside (Target.folder_prefix hf) hbelow
    exact hapart.place_ne heq.symm

/-- Behind those targets a missing module configuration of the root is the same one and still
missing. -/
theorem still_missing {t' : FileTree} {written : List Path} (ht : t.Closed)
    (hroot : t.Anchored root) (hmissing : t.entry? (moduleFile t root) = .error .notFound)
    (hwrote : Wrote t front written t') (haside : ∀ x ∈ front, x.folder.Aside root)
    (hkept : ∀ name, PlainName name →
      t'.get? (root.join name).place = t.get? (root.join name).place) :
    moduleFile t' root = moduleFile t root ∧
      t'.entry? (moduleFile t root) = .error .notFound := by
  obtain ⟨hfile, htyped, hplain⟩ := missing_modules ht hroot hmissing
  rw [hfile] at hmissing ⊢
  refine ⟨if_neg fun hholds => ?_, ?_⟩
  · obtain ⟨e, he⟩ := FileTree.holds_iff.mp hholds
    have hget := FileTree.get?_place he
    rw [hkept _ (by decide), htyped] at hget
    cases hget
  · have hclear : ∀ place ∈ written.map Path.place,
        ¬place <+: (root.join "jsconfig.json").place := by
      intro place hplace
      obtain ⟨f, hf, rfl⟩ := List.mem_map.mp hplace
      obtain ⟨x, hx, hfile⟩ := hwrote.files f hf
      exact ((haside x hx).apart.inside (Target.folder_prefix hfile)
        (Path.place_prefix_join (by decide))).1
    refine (hwrote.filled.folder_or_missing ht (hroot.join (by decide)) hmissing
      hclear).resolve_left fun hfolder => ?_
    have hget := FileTree.get?_place (FileTree.isFolder_iff.mp hfolder)
    rw [hkept _ (by decide), hplain] at hget
    cases hget

/-- A missing module configuration is written with the data alone, if the files before it are those
of roots aside, and no other file stands in its place. -/
theorem writes_fresh (ht : t.Closed) (hroot : t.Anchored root)
    (hmissing : t.entry? (moduleFile t root) = .error .notFound)
    (hdata : data (.modules root) = .object fields)
    (hmergeable : (data (.modules root)).Mergeable maxDepth)
    (hfront : ∀ x ∈ front, x.folder.Aside root)
    (hback : ∀ x ∈ back, ∀ f ∈ x.files, f.place ≠ (root.join "jsconfig.json").place)
    (report : ConfigReport) :
    let run := (front ++ .modules root :: back).foldl (addTarget data) (t, report)
    moduleFile t root ∈ run.2.written ∧
      readFile run.1 (moduleFile t root) = .ok (some (.object fields)) := by
  obtain ⟨t₁, written, hwrote, hrun⟩ := exists_wrote data t front
  obtain ⟨report₁, hfirst, -⟩ := hrun report
  have hkept : ∀ name, PlainName name → t₁.get? (root.join name).place =
      t.get? (root.join name).place := by
    intro name hname
    have hsame := get?_join_foldl (t := t) data hfront hname report
    rwa [hfirst] at hsame
  obtain ⟨hfile₁, hmissing₁⟩ := still_missing ht hroot hmissing hwrote hfront hkept
  obtain ⟨hfile, -, -⟩ := missing_modules ht hroot hmissing
  rw [hfile] at hfile₁ hmissing₁ ⊢
  obtain ⟨t₂, hmerge, hentry⟩ := exists_mergeInto_missing (hwrote.closed ht)
    ⟨root, _, by decide, hwrote.filled.anchored hroot, rfl⟩ hmissing₁ (data (.modules root))
  have hstep : addTarget data (t₁, report₁) (.modules root) =
      (t₂, record report₁ (root.join "jsconfig.json") (.ok true)) := by
    simp only [addTarget, Target.file, hfile₁, hmerge]
  -- the files behind it leave the new file as it is
  obtain ⟨t₃, later, hlater, hrun₃⟩ := exists_wrote data t₂ back
  obtain ⟨report₃, hlast, hwritten⟩ :=
    hrun₃ (record report₁ (root.join "jsconfig.json") (.ok true))
  have hnot : (root.join "jsconfig.json").place ∉ later.map Path.place := by
    intro hplace
    obtain ⟨f, hf, hsame⟩ := List.mem_map.mp hplace
    obtain ⟨x, hx, hown⟩ := hlater.files f hf
    exact hback x hx f hown hsame
  have hend := hlater.filled.entry?_file (by decide) hnot hentry
  rw [List.foldl_append, hfirst, List.foldl_cons, hstep, hlast]
  refine ⟨?_, ?_⟩
  · rw [hwritten]
    exact List.mem_append_left _ (List.mem_append_right _ (List.mem_singleton_self _))
  · rw [hdata] at hend hmergeable
    simp only [readFile, FileTree.read, hend, bind, Except.bind, read_fresh hmergeable]

end Fresh

end DerivedConfig

end ComponentAtlas
