import ComponentAtlas.Proofs.Files.Filling
import ComponentAtlas.Proofs.Indexing.ApartRoots
import ComponentAtlas.Proofs.Session.Deriving
import ComponentAtlas.Proofs.Session.Failing

/-!
# Derived files at roots that are gone

Derived files are written at the namespace roots that a session knows. If none of them is missing,
the files come into folders that stand, and no root is made; so it is with roots that have just been
searched for. A session does not notice that a root is removed, though: it makes the root again
with the folders around its files.
-/

namespace ComponentAtlas

open ComponentAtlas.Json

namespace NamespaceRoots

/-- What a search finds are folders. -/
theorem isFolder_of_mem_search {t : FileTree} {e : Exclusion} {depth : Nat} {start : Path}
    {f : Dialect × Path} (h : f ∈ search t e depth start) : t.isFolder f.2 = true := by
  induction depth generalizing start with
  | zero =>
      unfold search at h
      split at h
      · cases h
      · next inner hinner =>
          split at h
          · obtain rfl := List.mem_singleton.mp h
            exact isFolder_of_subfolders hinner
          · cases h
  | succ depth ih =>
      unfold search at h
      split at h
      · cases h
      · next inner hinner =>
          split at h
          · obtain rfl := List.mem_singleton.mp h
            exact isFolder_of_subfolders hinner
          · obtain ⟨folder, -, hfound⟩ := List.mem_flatMap.mp h
            exact ih hfound

end NamespaceRoots

/-- Roots that have just been searched for are folders. -/
theorem Workspace.isFolder_of_searchRoots {w : Workspace} {t : FileTree} {r : NamespaceRoots}
    (h : w.searchRoots t = .ok r) {d : Dialect} {root : Path} (hroot : root ∈ r.forDialect d) :
    t.isFolder root = true := by
  obtain rfl := searchRoots_eq h
  obtain ⟨start, -, hfound⟩ := List.mem_flatMap.mp (NamespaceRoots.mem_ofFound.mp hroot)
  exact NamespaceRoots.isFolder_of_mem_search (f := (d, root)) hfound

namespace FileTree

/-- A text is written into a folder, to which the path leads. -/
theorem isFolder_of_write {t t' : FileTree} {p : Path} {name text : String}
    (hname : PlainName name) (h : t.write (p.join name) text = .ok t') : t.isFolder p = true := by
  cases hplace : t.resolve (p.join name) with
  | error cause =>
      rw [write, hplace] at h
      cases h
  | ok place =>
      have hreach := reach_of_resolve hplace
      rw [Path.components_join hname, reach_concat] at hreach
      obtain ⟨outer, houter, hfolder, -⟩ := hreach
      exact isFolder_iff.mpr (entry?_folder_iff.mpr ⟨outer, houter, hfolder⟩)

/-- A path that finds nothing finds nothing under a name that is joined to it. -/
theorem missing_join {t : FileTree} {p : Path} {name : String} (hp : t.Anchored p)
    (hname : PlainName name) (h : t.entry? p = .error .notFound) :
    t.entry? (p.join name) = .error .notFound := by
  obtain ⟨here, rest, hstop, hnone⟩ := (missing_iff hp.absolute).mp h
  obtain ⟨steps, hsplit, hreach⟩ := hstop.split
  refine (missing_iff (hp.join hname).absolute).mpr
    ⟨here, rest ++ [.name name], ⟨⟨steps, ?_, hreach⟩, hstop.noFolder⟩, hnone⟩
  rw [Path.components_join hname, hsplit, List.append_assoc]

end FileTree

namespace DerivedConfig

section Merge

variable {t t' : FileTree} {f root : Path} {name : String} {result : Except ConfigError Bool}

/-- What merging data into a file leaves of any tree: the file, which stands in a folder then, or
some more folders at most. -/
inductive Leaves (t : FileTree) (f : Path) : FileTree → Except ConfigError Bool → Prop where
  | written {t' : FileTree} (hfilled : t.Filled t' [f.place])
      (hfolder : ∀ (p : Path) (name : String), PlainName name → f = p.join name →
        t'.isFolder p = true ∧ (t.Closed → t'.Closed)) : Leaves t f t' (.ok true)
  | spared {t' : FileTree} {result : Except ConfigError Bool} (hresult : result ≠ .ok true)
      (hextends : t.Extends t') (hclosed : t.Closed → t'.Closed) : Leaves t f t' result

theorem Leaves.isFolder (h : Leaves t f t' result) (hroot : t.isFolder root = true) :
    t'.isFolder root = true := by
  cases h with
  | written hfilled => exact hfilled.isFolder hroot
  | spared _ hextends => exact hextends.filled.isFolder hroot

theorem leaves_mergeInto (t : FileTree) (f : Path) (data : Value) :
    Leaves t f (mergeInto t f data).1 (mergeInto t f data).2 := by
  have hfailed (e : ConfigError) : (.error e : Except ConfigError Bool) ≠ .ok true :=
    fun he => nomatch he
  unfold mergeInto
  split
  · exact .spared (hfailed _) (.refl t) id
  · exact .spared (fun he => nomatch he) (.refl t) id
  · next v hplan =>
      unfold writeFile
      cases hmake : makeParent t f with
      | error cause => exact .spared (hfailed _) (.refl t) id
      | ok made =>
          have hmade : t.Extends made ∧ (t.Closed → made.Closed) := by
            unfold makeParent at hmake
            split at hmake
            · exact ⟨(FileTree.createFolders_eq_ok hmake).1,
                fun ht => FileTree.createFolders_closed ht hmake⟩
            · cases hmake
              exact ⟨.refl t, id⟩
          dsimp only
          cases hwrite : made.write f (v.pretty ++ "\n") with
          | error cause => exact .spared (hfailed _) hmade.1 hmade.2
          | ok t' =>
              obtain ⟨rfl, hnot⟩ := FileTree.write_eq_ok hwrite
              have hput := FileTree.filled_put hnot (v.pretty ++ "\n")
              refine .written (hmade.1.filled.trans hput) ?_
              rintro p name hname rfl
              refine ⟨hput.isFolder (FileTree.isFolder_of_write hname hwrite), fun ht => ?_⟩
              rw [Path.place_join hname] at hnot ⊢
              exact (hmade.2 ht).put (FileTree.folder_of_write hname hwrite) hnot

/-- Data that are merged into a missing file are written there, as they merge into nothing. -/
theorem exists_mergeInto_missing (ht : t.Closed) (hf : t.Seated f)
    (hmissing : t.entry? f = .error .notFound) (data : Value) :
    ∃ t', mergeInto t f data = (t', .ok true) ∧ t'.entry? f =
      .ok (.file (some (((Value.object []).merge data).1.pretty ++ "\n")) 0) := by
  have hnone : readFile t f = .ok none := readFile_eq_none.mpr hmissing
  obtain ⟨t', result, hmerge, hmerged⟩ := exists_merged ht hf data
  cases hmerged with
  | failed herror =>
      rw [hnone] at herror
      cases herror
  | kept hold =>
      rw [hnone] at hold
      cases hold
  | laid hold htext hlaid hentry =>
      obtain rfl := Except.ok.inj (hnone.symm.trans hold)
      subst htext
      exact ⟨t', hmerge, hentry⟩

/-- A root that is missing is made with the folders around a file. -/
theorem isFolder_of_mergeInto (ht : t.Closed) (hroot : t.Anchored root) (hname : PlainName name)
    (hmissing : t.entry? root = .error .notFound) (data : Value) :
    (mergeInto t (root.join name) data).1.isFolder root = true := by
  obtain ⟨t', hmerge, hentry⟩ := exists_mergeInto_missing ht ⟨root, name, hname, hroot, rfl⟩
    (FileTree.missing_join hroot hname hmissing) data
  rw [hmerge]
  obtain ⟨here, hreach, hfolder, -⟩ := FileTree.entry?_join_reach hname hentry
  exact FileTree.isFolder_iff.mpr (FileTree.entry?_folder_iff.mpr ⟨here, hreach, hfolder⟩)

end Merge

section Run

variable {t t' : FileTree} {xs : List Target} {written : List Path}

/-- What writing the files of some targets leaves of any tree. -/
structure Wrote (t : FileTree) (xs : List Target) (written : List Path) (t' : FileTree) :
    Prop where
  filled : t.Filled t' (written.map Path.place)
  files : ∀ f ∈ written, ∃ x ∈ xs, f ∈ x.files
  folders : ∀ f ∈ written, ∀ (p : Path) (name : String), PlainName name → f = p.join name →
    t'.isFolder p = true
  closed : t.Closed → t'.Closed

theorem Wrote.nil (t : FileTree) : Wrote t [] [] t :=
  ⟨.refl t, List.forall_mem_nil _, List.forall_mem_nil _, id⟩

/-- One more target in front. -/
theorem Wrote.cons {x : Target} {t₁ : FileTree} {result : Except ConfigError Bool}
    (hstep : Leaves t (x.file t) t₁ result) (h : Wrote t₁ xs written t') :
    Wrote t (x :: xs) ((if result = .ok true then [x.file t] else []) ++ written) t' := by
  have hlater : ∀ f ∈ written, ∃ y ∈ x :: xs, f ∈ y.files := by
    intro f hf
    obtain ⟨y, hy, hfile⟩ := h.files f hf
    exact ⟨y, List.mem_cons_of_mem _ hy, hfile⟩
  obtain ⟨name, hname, hjoin⟩ := Target.join_of_mem_files (x.file_mem_files t)
  cases hstep with
  | spared hresult hextends hclosed =>
      rw [if_neg hresult]
      exact ⟨hextends.filled.trans h.filled, hlater, h.folders, h.closed ∘ hclosed⟩
  | written hfilled hfolder =>
      rw [if_pos rfl]
      refine ⟨?_, fun f hf => ?_, fun f hf q inner hinner hq => ?_,
        h.closed ∘ (hfolder _ name hname hjoin).2⟩
      · rw [List.map_append]
        exact hfilled.trans h.filled
      · rcases List.mem_append.mp hf with hfirst | hrest
        · obtain rfl := List.mem_singleton.mp hfirst
          exact ⟨x, List.mem_cons_self, x.file_mem_files t⟩
        · exact hlater f hrest
      · rcases List.mem_append.mp hf with hfirst | hrest
        · obtain rfl := List.mem_singleton.mp hfirst
          exact h.filled.isFolder (hfolder q inner hinner hq).1
        · exact h.folders f hrest q inner hinner hq

theorem exists_wrote (data : Target → Value) (t : FileTree) (xs : List Target) :
    ∃ t' written, Wrote t xs written t' ∧ ∀ report, ∃ later,
      xs.foldl (addTarget data) (t, report) = (t', later) ∧
        later.written = report.written ++ written := by
  induction xs generalizing t with
  | nil => exact ⟨t, [], .nil t, fun report => ⟨report, rfl, (List.append_nil _).symm⟩⟩
  | cons x xs ih =>
      have hstep := leaves_mergeInto t (x.file t) (data x)
      obtain ⟨t', written, hwrote, hrun⟩ := ih (mergeInto t (x.file t) (data x)).1
      refine ⟨t', _, .cons hstep hwrote, fun report => ?_⟩
      obtain ⟨later, hlater, hwritten⟩ :=
        hrun (record report (x.file t) (mergeInto t (x.file t) (data x)).2)
      refine ⟨later, hlater, ?_⟩
      rw [hwritten, ← List.append_assoc]
      congr 1
      generalize (mergeInto t (x.file t) (data x)).2 = result
      rcases result with e | _ | _ <;> simp [record]

/-- A missing root with a target is made, if it does not lie in a file of one. -/
theorem makes_root {root : Path} {data : Target → Value} {report : ConfigReport}
    (ht : t.Closed) (hroot : t.Anchored root) (hmissing : t.entry? root = .error .notFound)
    (hmem : .lint root ∈ xs) (hclear : ∀ x ∈ xs, ∀ f ∈ x.files, ¬f.place <+: root.place) :
    (xs.foldl (addTarget data) (t, report)).1.isFolder root = true := by
  obtain ⟨front, back, rfl⟩ := List.append_of_mem hmem
  obtain ⟨t₁, written, hwrote, hrun⟩ := exists_wrote data t front
  obtain ⟨later, hlater, -⟩ := hrun report
  have hstep : (addTarget data (t₁, later) (.lint root)).1.isFolder root = true := by
    change (mergeInto t₁ (root.join ".eslintrc.json") (data (.lint root))).1.isFolder root = true
    have hclear' : ∀ place ∈ written.map Path.place, ¬place <+: root.place := by
      intro place hplace
      obtain ⟨f, hf, rfl⟩ := List.mem_map.mp hplace
      obtain ⟨x, hx, hfile⟩ := hwrote.files f hf
      exact hclear x (List.mem_append_left _ hx) f hfile
    rcases hwrote.filled.folder_or_missing ht hroot hmissing hclear' with hfolder | hstill
    · exact (leaves_mergeInto t₁ _ _).isFolder hfolder
    · exact isFolder_of_mergeInto (hwrote.closed ht) (hwrote.filled.anchored hroot) (by decide)
        hstill _
  rw [List.foldl_append, hlater, List.foldl_cons]
  obtain ⟨t', written', hwrote', hrun'⟩ :=
    exists_wrote data (addTarget data (t₁, later) (.lint root)).1 back
  obtain ⟨last, hlast, -⟩ := hrun' (addTarget data (t₁, later) (.lint root)).2
  rw [hlast]
  exact hwrote'.filled.isFolder hstep

/-- Derived files come into namespace roots that stood before, and no root is made. -/
structure Respects (t : FileTree) (w : Workspace) (lwc : List Path) (report : ConfigReport)
    (t' : FileTree) : Prop where
  /-- A file that is written is one of a root that stands, or that of the editor. -/
  written : ∀ f ∈ report.written,
    (∃ root ∈ lwc, t.isFolder root = true ∧
        ∃ name ∈ ["tsconfig.json", "jsconfig.json", ".eslintrc.json"], f = root.join name) ∨
      ∃ first ∈ w.roots.head?, f = first.join ".vscode/settings.json"
  /-- Everything else stays, and folders are made at most. -/
  frame : ∀ place, (∀ f ∈ report.written, f.place ≠ place) →
    t'.get? place = t.get? place ∨ t.get? place = none ∧ t'.get? place = some .folder
  roots : ∀ root ∈ lwc, t'.isFolder root = t.isFolder root

/-- The files of a target are those of a root of web components, or that of the editor. -/
theorem mem_files_targets {w : Workspace} {roots : NamespaceRoots} {x : Target} {f : Path}
    (hx : x ∈ targets w roots) (hf : f ∈ x.files) :
    (∃ root ∈ roots.lwc,
        ∃ name ∈ ["tsconfig.json", "jsconfig.json", ".eslintrc.json"], f = root.join name) ∨
      ∃ first ∈ w.roots.head?, f = first.join ".vscode/settings.json" := by
  rcases List.mem_append.mp hx with hx | hx
  · obtain ⟨root, hroot, hx⟩ := List.mem_flatMap.mp hx
    refine .inl ⟨root, hroot, ?_⟩
    rcases List.mem_pair.mp hx with rfl | rfl
    · rcases List.mem_pair.mp hf with rfl | rfl
      · exact ⟨_, by simp, rfl⟩
      · exact ⟨_, by simp, rfl⟩
    · obtain rfl := List.mem_singleton.mp hf
      exact ⟨_, by simp, rfl⟩
  · obtain ⟨first, hfirst, rfl⟩ := Option.map_eq_some_iff.mp (Option.mem_toList.mp hx)
    exact .inr ⟨first, hfirst, List.mem_singleton.mp hf⟩

/-- When no root is missing, derived files respect the roots. -/
theorem Wrote.respects {w : Workspace} {roots : NamespaceRoots} {report : ConfigReport}
    (h : Wrote t (targets w roots) report.written t')
    (hpresent : ∀ root ∈ roots.lwc, t.entry? root ≠ .error .notFound) :
    Respects t w roots.lwc report t' := by
  have hstood : ∀ root ∈ roots.lwc, t'.isFolder root = true → t.isFolder root = true :=
    fun root hroot hfolder =>
      (h.filled.isFolder_or_missing hfolder).resolve_right (hpresent root hroot)
  constructor
  case written =>
    intro f hf
    obtain ⟨x, hx, hfile⟩ := h.files f hf
    refine (mem_files_targets hx hfile).imp_left ?_
    rintro ⟨root, hroot, name, hname, hjoin⟩
    have hplain : ∀ name ∈ ["tsconfig.json", "jsconfig.json", ".eslintrc.json"],
        PlainName name := by
      decide
    have hfolder := h.folders f hf root name (hplain name hname) hjoin
    exact ⟨root, hroot, hstood root hroot hfolder, name, hname, hjoin⟩
  case frame =>
    intro place hother
    rcases h.filled place with hsame | hnew | ⟨hwritten, -⟩
    · exact .inl hsame
    · exact .inr hnew
    · obtain ⟨f, hf, hplace⟩ := List.mem_map.mp hwritten
      exact absurd hplace (hother f hf)
  case roots =>
    intro root hroot
    rw [Bool.eq_iff_iff]
    exact ⟨hstood root hroot, h.filled.isFolder⟩

end Run

end DerivedConfig

namespace Project

open DerivedConfig (Respects Wrote targets)

variable {p : Project} {roots : NamespaceRoots}

/-- Derived files are written as the settings say. -/
theorem exists_writeConfig (hroots : p.namespaceRoots = .ok roots) :
    ∃ q report, p.writeConfig = (q, .ok report) ∧
      Wrote p.files (targets p.session.workspace roots) report.written q.files ∧
        (p.session.workspace.settings.writeProjectConfig = true →
          q.files = (DerivedConfig.writeAll p.targetData p.files
            (targets p.session.workspace roots)).1) := by
  unfold writeConfig
  split
  · obtain ⟨t', written, hwrote, hrun⟩ := DerivedConfig.exists_wrote p.targetData p.files
      (targets p.session.workspace roots)
    obtain ⟨report, hreport, hwritten⟩ := hrun {}
    have hall : DerivedConfig.writeAll p.targetData p.files (targets p.session.workspace roots) =
        (t', report) := hreport
    refine ⟨_, report, by rw [writeDerived_eq hroots, hall], ?_, fun _ => by rw [hall]⟩
    rw [hwritten, List.nil_append]
    exact hwrote
  · next hoff =>
      refine ⟨p, {}, rfl, ?_, fun hon => absurd hon hoff⟩
      exact ⟨.refl _, List.forall_mem_nil _, List.forall_mem_nil _, id⟩

/-- Derived files respect the namespace roots that a session knows when none of these is missing,
and so they do when the roots are not known and have to be searched for. A known root that is
missing, and does not lie in a derived file, is made: nothing stood there, and a folder does. -/
theorem writeConfig_roots (hroots : p.namespaceRoots = .ok roots) :
    ∃ q report, p.writeConfig = (q, .ok report) ∧
      ((∀ root ∈ roots.lwc, p.files.entry? root ≠ .error .notFound) →
        Respects p.files p.session.workspace roots.lwc report q.files) ∧
      (p.session.workspace.known = none →
        Respects p.files p.session.workspace roots.lwc report q.files) ∧
      (p.session.workspace.settings.writeProjectConfig = true → p.files.Closed →
        ∀ root ∈ roots.lwc, p.files.Anchored root → p.files.entry? root = .error .notFound →
          (∀ x ∈ targets p.session.workspace roots, ∀ f ∈ x.files, ¬f.place <+: root.place) →
            p.files.isFolder root = false ∧ q.files.isFolder root = true) := by
  obtain ⟨q, report, hrun, hwrote, hfiles⟩ := exists_writeConfig hroots
  refine ⟨q, report, hrun, hwrote.respects, fun hunknown => hwrote.respects ?_, ?_⟩
  · intro root hroot hmissing
    have hsearch : p.session.workspace.searchRoots p.files = .ok roots := by
      rw [namespaceRoots, Workspace.namespaceRoots, hunknown] at hroots
      exact hroots
    have hfolder := Workspace.isFolder_of_searchRoots (d := .lwc) hsearch hroot
    rw [FileTree.isFolder_iff, hmissing] at hfolder
    cases hfolder
  · intro hon ht root hroot hanchored hmissing hclear
    have hmem : .lint root ∈ targets p.session.workspace roots :=
      List.mem_append_left _ (List.mem_flatMap.mpr ⟨root, hroot, by simp⟩)
    refine ⟨?_, ?_⟩
    · rw [FileTree.isFolder, hmissing]
    · rw [hfiles hon]
      exact DerivedConfig.makes_root ht hanchored hmissing hmem hclear

namespace Unnoticed

/-- One component below a namespace root. -/
def before : FileTree :=
  FileTree.empty.plant ⟨"/w/lwc/card/card.js"⟩ (.file (some "export default class Card \x7b\x7d") 5)

/-- The root is gone. -/
def after : FileTree :=
  (before.remove? ⟨"/w/lwc"⟩).getD before

def workspace : Workspace :=
  .ofSettings before [⟨"/w"⟩] { Settings.standard with cache := false }

/-- A session that has indexed the component and was told that the root is gone. -/
def project : Project :=
  (applyChanges ⟨after, (fullIndex ⟨before, .ofWorkspace workspace⟩).1.session⟩
    [⟨⟨"/w/lwc"⟩, .deleted⟩]).1

theorem facts : project.namespaceRoots = .ok ⟨[⟨"/w/lwc"⟩], []⟩ ∧ project.files = after ∧
    project.session.workspace.settings.writeProjectConfig = true ∧
      project.session.workspace.roots = [⟨"/w"⟩] ∧
        after.Closed ∧ after.entry? ⟨"/w/lwc"⟩ = .error .notFound := by
  decide +kernel

end Unnoticed

/-- A root that was removed comes back with its derived files. -/
theorem writeConfig_roots_removed :
    ∃ q report, Unnoticed.project.writeConfig = (q, .ok report) ∧
      Unnoticed.project.files.isFolder ⟨"/w/lwc"⟩ = false ∧
        q.files.isFolder ⟨"/w/lwc"⟩ = true := by
  obtain ⟨hroots, hfiles, hon, hworkspace, hclosed, hmissing⟩ := Unnoticed.facts
  obtain ⟨q, report, hrun, -, -, hmade⟩ := writeConfig_roots hroots
  rw [hfiles] at hmade ⊢
  refine ⟨q, report, hrun, hmade hon hclosed _ List.mem_cons_self ?_ hmissing ?_⟩
  · exact FileTree.anchored_of_straight ⟨["w", "lwc"], by decide⟩ _
  · have htargets : targets Unnoticed.project.session.workspace ⟨[⟨"/w/lwc"⟩], []⟩ =
        [.modules ⟨"/w/lwc"⟩, .lint ⟨"/w/lwc"⟩, .editor ⟨"/w"⟩] := by
      rw [targets, hworkspace]
      rfl
    rw [htargets]
    decide +kernel

end Project

end ComponentAtlas
