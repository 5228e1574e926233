import ComponentAtlas.Proofs.Session.DerivedFiles
import ComponentAtlas.Proofs.Session.Frames

/-!
# Deriving configuration

Derived files are written one after the other. One that cannot be read is reported and stays, and
the others are handled as if it were no target; one that is written holds the data merged into what
it held before. Writing a second time changes nothing. This needs settled roots: a step upwards
behind a missing folder leads to a file that was not found as long as the folder was missing, and a
root that lies in the file for typed sources of another one makes a folder of it.
-/

namespace ComponentAtlas

open ComponentAtlas.Json

namespace DerivedConfig

section Run

variable {t t₁ t' : FileTree} {data : Target → Value} {xs : List Target} {x : Target}
  {o : Outcome} {outcomes : List Outcome}

/-- What became of a target, from a tree in front of it to one behind it. -/
structure Handled (data : Target → Value) (t t' : FileTree) (o : Outcome) : Prop where
  before : o.target.file t = o.file
  after : o.target.file t' = o.file
  failed {e : ConfigError} (h : o.result = .error e) : readFile t' o.file = .error e
  unread {e : ConfigError} (h : readFile t o.file = .error e) :
    o.result = .error e ∧ t'.entry? o.file = t.entry? o.file
  kept (h : o.result = .ok false) : plan t' o.file (data o.target) = .ok none ∧
    ∃ text time, t'.entry? o.file = .ok (.file text time) ∧
      t.entry? o.file = .ok (.file text time)
  written (h : o.result = .ok true) : ∃ old, readFile t o.file = .ok old ∧
    t'.entry? o.file =
      .ok (.file (some (((old.getD (.object [])).merge (data o.target)).1.pretty ++ "\n")) 0)

/-- The tree after the files of some targets are written. -/
structure Derives (data : Target → Value) (t : FileTree) (outcomes : List Outcome)
    (t' : FileTree) : Prop where
  handled : ∀ o ∈ outcomes, Handled data t t' o
  spared {f : Path} (hf : t.Seated f) (hne : ∀ o ∈ outcomes, f.place ≠ o.file.place) :
    t.Spared t' f
  holds {f : Path} (hf : t.Seated f) (hne : ∀ o ∈ outcomes, f.place ≠ o.file.place)
    (hclear : ∀ o ∈ outcomes, f.place <+: o.file.place → t.get? f.place ≠ none) :
    t'.holds f = t.holds f
  get? (place : Place) : t'.get? place = t.get? place ∨ ∃ o ∈ outcomes, o.result = .ok true ∧
    (place = o.file.place ∨
      place <+: o.file.place ∧ t.get? place = none ∧ t'.get? place = some .folder)

theorem Derives.nil (data : Target → Value) (t : FileTree) : Derives data t [] t :=
  ⟨List.forall_mem_nil _, fun _ _ => .refl t _, fun _ _ _ => rfl, fun _ => .inl rfl⟩

/-- A target whose file is merged into and then spared is handled. -/
theorem Handled.of_merged (hfile : x.file t' = x.file t)
    {result : Except ConfigError Bool} (hmerged : Merged t (x.file t) (data x) result t₁)
    (hspared : t₁.Spared t' (x.file t)) : Handled data t t' ⟨x, x.file t, result⟩ := by
  constructor
  case before => rfl
  case after => exact hfile
  case failed =>
    rintro e rfl
    cases hmerged with
    | failed he => exact (readFile_error_of_spared hspared he).1
  case unread =>
    intro e he
    cases hmerged with
    | failed he' =>
        obtain rfl := Except.error.inj (he'.symm.trans he)
        exact ⟨rfl, (readFile_error_of_spared hspared he).2⟩
    | kept hold => cases he.symm.trans hold
    | laid hold => cases he.symm.trans hold
  case kept =>
    rintro rfl
    cases hmerged with
    | kept hold hplan =>
        obtain ⟨text, time, hentry, -⟩ := readFile_eq_some hold
        have hsame := hspared.kept (by rw [hentry]; exact fun he => nomatch he)
        exact ⟨(plan_congr hsame).trans hplan, some text, time, hsame.trans hentry, hentry⟩
  case written =>
    rintro rfl
    cases hmerged with
    | laid hold htext _ hentry =>
        refine ⟨_, hold, htext ▸ ?_⟩
        rw [hspared.kept (by rw [hentry]; exact fun he => nomatch he), hentry]

/-- What was handled from a later tree on was handled from an earlier one that spared its file. -/
theorem Handled.of_spared (h : Handled data t₁ t' o) (hfile : o.target.file t = o.file)
    (hspared : t.Spared t₁ o.file) : Handled data t t' o := by
  constructor
  case before => exact hfile
  case after => exact h.after
  case failed => exact h.failed
  case unread =>
    intro e he
    obtain ⟨he', hsame⟩ := readFile_error_of_spared hspared he
    obtain ⟨hresult, hsame'⟩ := h.unread he'
    exact ⟨hresult, hsame'.trans hsame⟩
  case kept =>
    intro hresult
    obtain ⟨hplan, text, time, hentry', hentry⟩ := h.kept hresult
    exact ⟨hplan, text, time, hentry', hspared.file hentry⟩
  case written =>
    intro hresult
    obtain ⟨old, hold, hentry⟩ := h.written hresult
    exact ⟨old, readFile_of_spared hspared hold, hentry⟩

/-- Merging into the file of a target leaves the others what they are, and apart. -/
theorem Spaced.step (h : Spaced t (x :: xs)) (ht : t.Closed) {result : Except ConfigError Bool}
    (hmerged : Merged t (x.file t) (data x) result t₁) :
    Spaced t₁ xs ∧ ∀ y ∈ xs, y.file t₁ = y.file t := by
  obtain ⟨hx, hxs⟩ := List.pairwise_cons.mp h.distinct
  refine ⟨⟨fun y hy f hf => ?_, hxs, fun root hroot y hy g hg hne hlies => ?_⟩, fun y hy => ?_⟩
  · exact hmerged.seated (h.seated y (List.mem_cons_of_mem _ hy) f hf)
  · exact hmerged.stands (h.clear root (List.mem_cons_of_mem _ hroot) y
      (List.mem_cons_of_mem _ hy) g hg hne hlies)
  · refine Target.file_congr fun root hroot => ?_
    subst hroot
    have hmem := List.mem_cons_of_mem x hy
    have hne := (hx _ hy _ (x.file_mem_files t) _ List.mem_cons_self).symm
    exact hmerged.holds ht (h.seated _ hmem _ List.mem_cons_self) hne
      (h.clear root hmem x List.mem_cons_self _ (x.file_mem_files t) hne)

/-- The outcomes of targets that are handled later. -/
theorem Derives.file_eq (hspaced : Spaced t (x :: xs)) (ht : t.Closed)
    {result : Except ConfigError Bool} (hmerged : Merged t (x.file t) (data x) result t₁)
    (htargets : outcomes.map Outcome.target = xs) (h : Derives data t₁ outcomes t') :
    ∀ o ∈ outcomes, o.target ∈ xs ∧ o.target.file t = o.file ∧ o.file ∈ o.target.files := by
  intro o ho
  have hmem : o.target ∈ xs := htargets ▸ List.mem_map_of_mem ho
  have hfile := (hspaced.step ht hmerged).2 o.target hmem
  have hbefore := (h.handled o ho).before
  exact ⟨hmem, hfile.symm.trans hbefore, hbefore ▸ o.target.file_mem_files t₁⟩

/-- One more target in front of those that are handled. -/
theorem Derives.cons (hspaced : Spaced t (x :: xs)) (ht : t.Closed)
    {result : Except ConfigError Bool} (hmerged : Merged t (x.file t) (data x) result t₁)
    (htargets : outcomes.map Outcome.target = xs) (h : Derives data t₁ outcomes t') :
    Derives data t (⟨x, x.file t, result⟩ :: outcomes) t' := by
  have hlater := Derives.file_eq hspaced ht hmerged htargets h
  have hseated := hspaced.seated x List.mem_cons_self
  have hne : ∀ o ∈ outcomes, ∀ f ∈ x.files, f.place ≠ o.file.place := fun o ho f hf =>
    (List.pairwise_cons.mp hspaced.distinct).1 _ (hlater o ho).1 f hf _ (hlater o ho).2.2
  have hfile : x.file t' = x.file t := by
    refine (Target.file_congr fun root hroot => ?_).trans (Target.file_of_merged ht hseated hmerged)
    subst hroot
    have hmem : root.join "tsconfig.json" ∈ (Target.modules root).files := List.mem_cons_self
    refine h.holds (hmerged.seated (hseated _ hmem)) (fun o ho => hne o ho _ hmem) ?_
    intro o ho hlies
    obtain ⟨hxs, -, hfiles⟩ := hlater o ho
    exact hmerged.stands (hspaced.clear root List.mem_cons_self _ (List.mem_cons_of_mem _ hxs) _
      hfiles (hne o ho _ hmem) hlies)
  constructor
  case handled =>
    refine List.forall_mem_cons.mpr ⟨.of_merged hfile hmerged ?_, fun o ho => ?_⟩
    · exact h.spared (hmerged.seated (hseated _ (x.file_mem_files t))) fun o ho =>
        hne o ho _ (x.file_mem_files t)
    · obtain ⟨hxs, hsame, hfiles⟩ := hlater o ho
      refine (h.handled o ho).of_spared hsame (hmerged.spared ht ?_ ?_)
      · exact hspaced.seated _ (List.mem_cons_of_mem _ hxs) _ hfiles
      · exact (hne o ho _ (x.file_mem_files t)).symm
  case spared =>
    intro f hf hother
    obtain ⟨hfirst, hrest⟩ := List.forall_mem_cons.mp hother
    exact (hmerged.spared ht hf hfirst).trans (h.spared (hmerged.seated hf) hrest)
  case holds =>
    intro f hf hother hclear
    obtain ⟨hfirst, hrest⟩ := List.forall_mem_cons.mp hother
    obtain ⟨hclearFirst, hclearRest⟩ := List.forall_mem_cons.mp hclear
    refine (h.holds (hmerged.seated hf) hrest fun o ho hlies => ?_).trans
      (hmerged.holds ht hf hfirst hclearFirst)
    exact hmerged.stands (hclearRest o ho hlies)
  case get? =>
    intro place
    rcases h.get? place with heq | ⟨o, ho, hresult, hplace⟩
    · rw [heq]
      exact (hmerged.get? place).imp_right fun ⟨hresult, hplace⟩ =>
        ⟨_, List.mem_cons_self, hresult, hplace⟩
    · refine .inr ⟨o, List.mem_cons_of_mem _ ho, hresult, hplace.imp_right ?_⟩
      rintro ⟨hlies, hnone, hfolder⟩
      exact ⟨hlies, by_contra fun hstands => hmerged.stands hstands hnone, hfolder⟩

/-- Files that are spaced are written one after the other. -/
theorem exists_derives (data : Target → Value) (ht : t.Closed) (h : Spaced t xs) :
    ∃ outcomes t', outcomes.map Outcome.target = xs ∧ Derives data t outcomes t' ∧
      ∀ report, xs.foldl (addTarget data) (t, report) = (t', recordAll report outcomes) := by
  induction xs generalizing t with
  | nil => exact ⟨[], t, rfl, .nil data t, fun report => rfl⟩
  | cons x xs ih =>
      obtain ⟨t₁, result, hmerge, hmerged⟩ := exists_merged ht
        (h.seated x List.mem_cons_self _ (x.file_mem_files t)) (data x)
      obtain ⟨outcomes, t', htargets, hderives, hrun⟩ :=
        ih (hmerged.closed ht) (h.step ht hmerged).1
      refine ⟨⟨x, x.file t, result⟩ :: outcomes, t', by rw [List.map_cons, htargets],
        .cons h ht hmerged htargets hderives, fun report => ?_⟩
      have hstep : addTarget data (t, report) x = (t₁, record report (x.file t) result) := by
        simp only [addTarget, hmerge]
      rw [List.foldl_cons, hstep, hrun]
      rfl

theorem Spaced.left {front back : List Target} (h : Spaced t (front ++ back)) : Spaced t front where
  seated y hy := h.seated y (List.mem_append_left _ hy)
  distinct := (List.pairwise_append.mp h.distinct).1
  clear root hroot y hy := h.clear root (List.mem_append_left _ hroot) y (List.mem_append_left _ hy)

/-- A file that cannot be read cannot be read at its turn, and the tree stays. -/
theorem mergeInto_of_unread {front back : List Target} {e : ConfigError}
    (h : Spaced t (front ++ x :: back)) (htargets : outcomes.map Outcome.target = front)
    (hderives : Derives data t outcomes t₁) (he : readFile t (x.file t) = .error e) :
    x.file t₁ = x.file t ∧ mergeInto t₁ (x.file t) (data x) = (t₁, .error e) := by
  have hx : x ∈ front ++ x :: back := List.mem_append_right _ List.mem_cons_self
  have hlater : ∀ o ∈ outcomes, o.target ∈ front ∧ o.file ∈ o.target.files := by
    intro o ho
    exact ⟨htargets ▸ List.mem_map_of_mem ho,
      (hderives.handled o ho).before ▸ o.target.file_mem_files t⟩
  have hne : ∀ f ∈ x.files, ∀ o ∈ outcomes, f.place ≠ o.file.place := fun f hf o ho =>
    ((List.pairwise_append.mp h.distinct).2.2 _ (hlater o ho).1 x List.mem_cons_self _
      (hlater o ho).2 f hf).symm
  constructor
  · refine Target.file_congr fun root hroot => ?_
    subst hroot
    refine hderives.holds (h.seated _ hx _ List.mem_cons_self) (hne _ List.mem_cons_self) ?_
    exact fun o ho => h.clear root hx _ (List.mem_append_left _ (hlater o ho).1) _ (hlater o ho).2
      (hne _ List.mem_cons_self o ho)
  · have hspared := hderives.spared (h.seated x hx _ (x.file_mem_files t))
      (hne _ (x.file_mem_files t))
    simp only [mergeInto, plan_of_error (readFile_error_of_spared hspared he).1]

/-- A file that cannot be read changes nothing in how the other files are handled. -/
theorem writeAll_skip (data : Target → Value) {front back : List Target} {e : ConfigError}
    (ht : t.Closed) (h : Spaced t (front ++ x :: back)) (he : readFile t (x.file t) = .error e) :
    ∃ errors later, (writeAll data t (front ++ x :: back)).2.errors = errors ++ e :: later ∧
      writeAll data t (front ++ back) = ((writeAll data t (front ++ x :: back)).1,
        { (writeAll data t (front ++ x :: back)).2 with errors := errors ++ later }) := by
  obtain ⟨outcomes, t₁, htargets, hderives, hfront⟩ := exists_derives data ht h.left
  obtain ⟨hfile, hmerge⟩ := mergeInto_of_unread h htargets hderives he
  obtain ⟨t', later, hback⟩ := exists_foldl_addTarget data t₁ back
  have hstep : ∀ report, addTarget data (t₁, report) x =
      (t₁, record report (x.file t) (.error e)) := by
    intro report
    simp only [addTarget, hfile, hmerge]
  have hwhole : writeAll data t (front ++ x :: back) =
      (t', recordAll (record (recordAll {} outcomes) (x.file t) (.error e)) later) := by
    rw [writeAll, List.foldl_append, hfront, List.foldl_cons, hstep, hback]
  have hothers : writeAll data t (front ++ back) =
      (t', recordAll (recordAll {} outcomes) later) := by
    rw [writeAll, List.foldl_append, hfront, hback]
  rw [hwhole, hothers, recordAll_eq _ later, recordAll_eq _ later]
  exact ⟨_, _, List.append_assoc _ _ _, rfl⟩

/-- A second time nothing is planned for any target, and what could not be read is not read. -/
theorem Derives.plan_again (h : Derives data t outcomes t')
    (hdata : ∀ x, (data x).Mergeable maxDepth) : ∀ o ∈ outcomes,
      plan t' (o.target.file t') (data o.target) = o.result.map fun _ => none := by
  intro o ho
  have hhandled := h.handled o ho
  rw [hhandled.after]
  rcases hresult : o.result with e | _ | _
  · exact plan_of_error (hhandled.failed hresult)
  · exact (hhandled.kept hresult).1
  · obtain ⟨old, hold, hentry⟩ := hhandled.written hresult
    exact DerivedConfig.plan_again (hdata _) hold hentry

/-- Writing a second time leaves the tree and reports the same errors. -/
theorem Derives.again (h : Derives data t outcomes t')
    (hdata : ∀ x, (data x).Mergeable maxDepth) :
    ∃ again, writeAll data t' (outcomes.map Outcome.target) = (t', again) ∧ again.written = [] ∧
      again.errors = (recordAll {} outcomes).errors := by
  have hplan := h.plan_again hdata
  have hrun : ∀ (later : List Outcome) (report : ConfigReport), (∀ o ∈ later, o ∈ outcomes) →
      (later.map Outcome.target).foldl (addTarget data) (t', report) =
        (t', recordAll report (later.map fun o =>
          ⟨o.target, o.target.file t', o.result.map fun _ => false⟩)) := by
    intro later
    induction later with
    | nil => exact fun report _ => rfl
    | cons o later ih =>
        intro report hlater
        obtain ⟨ho, hlater⟩ := List.forall_mem_cons.mp hlater
        have hstep : addTarget data (t', report) o.target =
            (t', record report (o.target.file t') (o.result.map fun _ => false)) := by
          simp only [addTarget, mergeInto, hplan o ho]
          rcases o.result with e | written <;> rfl
        rw [List.map_cons, List.foldl_cons, hstep]
        exact ih _ hlater
  refine ⟨_, hrun outcomes {} fun o ho => ho, ?_, ?_⟩
  · refine List.eq_nil_iff_forall_not_mem.mpr fun f hf => ?_
    obtain ⟨o', ho', hresult, -⟩ := mem_written_recordAll hf
    obtain ⟨o, -, rfl⟩ := List.mem_map.mp ho'
    rcases hold : o.result with e | written <;> simp [hold, Except.map] at hresult
  · rw [recordAll_eq, recordAll_eq]
    dsimp only
    rw [List.filterMap_map]
    refine congrArg _ (List.filterMap_congr fun o _ => ?_)
    rcases hold : o.result with e | _ | _ <;> simp [hold, Except.map]

/-- What writing the files of some targets comes to. -/
structure Contained (data : Target → Value) (t : FileTree) (xs : List Target)
    (report : ConfigReport) (t' : FileTree) : Prop where
  /-- Only files that are reported as written change, and folders in front of them are made. -/
  frame (place : Place) : t'.get? place = t.get? place ∨ ∃ f ∈ report.written,
    place = f.place ∨ place <+: f.place ∧ t.get? place = none ∧ t'.get? place = some .folder
  /-- A file that cannot be read is reported, and stays. -/
  failed : ∀ x ∈ xs, ∀ e, readFile t (x.file t) = .error e →
    e ∈ report.errors ∧ t'.entry? (x.file t) = t.entry? (x.file t)
  /-- Without the target of such a file, everything else is the same. -/
  skipped : ∀ front x back, xs = front ++ x :: back → ∀ e, readFile t (x.file t) = .error e →
    ∃ errors later, report.errors = errors ++ e :: later ∧
      writeAll data t (front ++ back) = (t', { report with errors := errors ++ later })
  unchanged : ∀ f ∈ report.unchanged, t'.entry? f = t.entry? f
  /-- A file that is written is that of a target and holds the data, merged into what it held. -/
  written : ∀ f ∈ report.written, ∃ x ∈ xs, f = x.file t ∧ ∃ old, readFile t f = .ok old ∧
    t'.read f = .ok (((old.getD (.object [])).merge (data x)).1.pretty ++ "\n")

/-- Files that are spaced are contained. -/
theorem Derives.contained (ht : t.Closed) (hspaced : Spaced t xs)
    (htargets : outcomes.map Outcome.target = xs) (h : Derives data t outcomes t')
    (hrun : writeAll data t xs = (t', recordAll {} outcomes)) :
    Contained data t xs (recordAll {} outcomes) t' := by
  constructor
  case frame =>
    intro place
    refine (h.get? place).imp_right ?_
    rintro ⟨o, ho, hresult, hplace⟩
    exact ⟨o.file, written_of_mem ho hresult, hplace⟩
  case failed =>
    intro x hx e he
    obtain ⟨o, ho, rfl⟩ := List.mem_map.mp (htargets ▸ hx)
    rw [(h.handled o ho).before] at he ⊢
    obtain ⟨hresult, hsame⟩ := (h.handled o ho).unread he
    exact ⟨errors_of_mem ho hresult, hsame⟩
  case skipped =>
    rintro front x back rfl e he
    have hskip := writeAll_skip data ht hspaced he
    rwa [hrun] at hskip
  case unchanged =>
    intro f hf
    obtain ⟨o, ho, hresult, rfl⟩ := mem_unchanged_recordAll hf
    obtain ⟨-, text, time, hentry', hentry⟩ := (h.handled o ho).kept hresult
    rw [hentry', hentry]
  case written =>
    intro f hf
    obtain ⟨o, ho, hresult, rfl⟩ := mem_written_recordAll hf
    obtain ⟨old, hold, hentry⟩ := (h.handled o ho).written hresult
    refine ⟨o.target, htargets ▸ List.mem_map_of_mem ho, (h.handled o ho).before.symm, old, hold,
      ?_⟩
    simp only [FileTree.read, hentry, bind, Except.bind]

end Run

end DerivedConfig

namespace Project

variable {p : Project} {roots : NamespaceRoots}

theorem writeDerived_eq (hroots : p.namespaceRoots = .ok roots) :
    p.writeDerived =
      let (t, report) := DerivedConfig.writeAll p.targetData p.files
        (DerivedConfig.targets p.session.workspace roots)
      ({ p.remember with files := t }, .ok report) := by
  have hremember : p.remember.namespaceRoots = .ok roots := by rw [namespaceRoots_remember, hroots]
  rw [writeDerived]
  simp only [hremember]
  rfl

/-- A workspace that knows its namespace roots remembers nothing new. -/
theorem remember_of_known {w : Workspace} (t : FileTree) (h : w.known = some roots) :
    w.remember t = w := by
  cases w
  cases h
  rfl

/-- Writing the derived files at settled roots changes only these files and makes the folders
around them: one that cannot be read is reported, stays and changes nothing for the others, and one
that is written holds the generated data, merged into what it held. Writing them again changes
nothing and reports the same errors. -/
theorem writeDerived_contained (hroots : p.namespaceRoots = .ok roots) (ht : p.files.Closed)
    (hsettled : DerivedConfig.Settled p.files p.session.workspace roots) :
    ∃ q report, p.writeDerived = (q, .ok report) ∧ q.session = p.remember.session ∧
      DerivedConfig.Contained p.targetData p.files
        (DerivedConfig.targets p.session.workspace roots) report q.files ∧
      ∃ again, q.writeDerived = (q, .ok again) ∧ again.written = [] ∧
        again.errors = report.errors := by
  obtain ⟨outcomes, t', htargets, hderives, hrun⟩ :=
    DerivedConfig.exists_derives p.targetData ht hsettled.spaced
  obtain ⟨again, hagain, hwritten, herrors⟩ := hderives.again fun x => x.mergeable _ _
  let q : Project := { p.remember with files := t' }
  have hworkspace : q.session.workspace = { p.session.workspace with known := some roots } :=
    remember_workspace hroots
  have hq : q.namespaceRoots = .ok roots := by
    rw [namespaceRoots, hworkspace, Workspace.namespaceRoots]
  have hremember : q.remember = q := by
    have hknown : q.session.workspace.known = some roots := by rw [hworkspace]
    rw [remember, Session.remember, remember_of_known _ hknown]
  refine ⟨q, _, ?_, rfl, hderives.contained ht hsettled.spaced htargets (hrun {}), again, ?_,
    hwritten, herrors⟩
  · rw [writeDerived_eq hroots, DerivedConfig.writeAll, hrun]
  · have hsecond : DerivedConfig.writeAll q.targetData q.files
        (DerivedConfig.targets q.session.workspace roots) = (t', again) :=
      (congrArg _ htargets.symm).trans hagain
    rw [writeDerived_eq hq, hremember, hsecond]

namespace Malformed

/-- A component next to a module configuration that is no document and to lint rules. -/
def files : FileTree :=
  ((FileTree.empty.plant ⟨"/w/lwc/card/card.js"⟩ (.file (some "") 5)).plant
    ⟨"/w/lwc/jsconfig.json"⟩ (.file (some "\x7b") 6)).plant
      ⟨"/w/lwc/.eslintrc.json"⟩ (.file (some "\x7b\"extends\": \"mine\"\x7d") 7)

/-- The roots are known, and nothing is indexed. -/
def project : Project :=
  ⟨files, .ofWorkspace { Workspace.ofSettings files [⟨"/w"⟩] .standard with
    known := some ⟨[⟨"/w/lwc"⟩], []⟩ }⟩

theorem settled :
    DerivedConfig.Settled files project.session.workspace ⟨[⟨"/w/lwc"⟩], []⟩ where
  anchored := by
    rintro root (_ | ⟨_, _ | ⟨_, ⟨⟩⟩⟩)
    · exact FileTree.anchored_of_straight ⟨["w", "lwc"], by decide⟩ files
    · exact FileTree.anchored_of_straight ⟨["w"], by decide⟩ files
  distinct := by decide
  clear := by decide +kernel

end Malformed

/-- A module configuration that is no document stays, and everything else is written once. -/
theorem writeDerived_keeps_malformed :
    ∃ q report, Malformed.project.writeDerived = (q, .ok report) ∧
      q.files.read ⟨"/w/lwc/jsconfig.json"⟩ = .ok "\x7b" ∧ report.errors ≠ [] ∧
        ∃ again, q.writeDerived = (q, .ok again) ∧ again.written = [] ∧
          again.errors = report.errors := by
  obtain ⟨q, report, hrun, -, hcontained, again⟩ :=
    writeDerived_contained (p := Malformed.project) rfl (by decide +kernel) Malformed.settled
  have hfile : DerivedConfig.moduleFile Malformed.files ⟨"/w/lwc"⟩ = ⟨"/w/lwc/jsconfig.json"⟩ := by
    decide +kernel
  have hunread :
      (DerivedConfig.readFile Malformed.files ⟨"/w/lwc/jsconfig.json"⟩).isOk = false := by
    decide +kernel
  cases he : DerivedConfig.readFile Malformed.files ⟨"/w/lwc/jsconfig.json"⟩ with
  | ok old =>
      rw [he] at hunread
      cases hunread
  | error e =>
      obtain ⟨hmem, hsame⟩ := hcontained.failed (.modules ⟨"/w/lwc"⟩) List.mem_cons_self e
        ((congrArg _ hfile).trans he)
      refine ⟨q, report, hrun, ?_, List.ne_nil_of_mem hmem, again⟩
      have hentry : q.files.entry? ⟨"/w/lwc/jsconfig.json"⟩ =
          Malformed.files.entry? ⟨"/w/lwc/jsconfig.json"⟩ := hfile ▸ hsame
      rw [FileTree.read, hentry]
      decide +kernel

end Project

end ComponentAtlas
