import ComponentAtlas.Proofs.Session.Targets

/-!
# Merging data into a file

A file that cannot be read stays. One that can be read, or that is missing, is written if that
changes it, and every other file is spared. What was written takes nothing more from the same data.
A report lists what was done in order.
-/

namespace ComponentAtlas

open ComponentAtlas.Json

namespace DerivedConfig

section File

variable {t t' : FileTree} {f : Path} {data v : Value} {e : ConfigError}

theorem readFile_congr (h : t'.entry? f = t.entry? f) : readFile t' f = readFile t f := by
  rw [readFile, FileTree.read, h, readFile, FileTree.read]

theorem plan_congr (h : t'.entry? f = t.entry? f) : plan t' f data = plan t f data := by
  rw [plan, readFile_congr h, plan]

/-- There is no value in a file exactly if the file is missing. -/
theorem readFile_eq_none : readFile t f = .ok none ↔ t.entry? f = .error .notFound := by
  cases hentry : t.entry? f with
  | error cause => cases cause <;> simp [readFile, FileTree.read, hentry, bind, Except.bind]
  | ok entry =>
      rcases entry with _ | ⟨_ | text, time⟩
      · simp [readFile, FileTree.read, hentry, bind, Except.bind]
      · simp [readFile, FileTree.read, hentry, bind, Except.bind]
      · simp only [readFile, FileTree.read, hentry, bind, Except.bind]
        cases Json.read text <;> simp

/-- A value is read from the text of a file. -/
theorem readFile_eq_some (h : readFile t f = .ok (some v)) :
    ∃ text time, t.entry? f = .ok (.file (some text) time) ∧ Json.read text = .ok v := by
  cases hentry : t.entry? f with
  | error cause => cases cause <;> simp [readFile, FileTree.read, hentry, bind, Except.bind] at h
  | ok entry =>
      rcases entry with _ | ⟨_ | text, time⟩
      · simp [readFile, FileTree.read, hentry, bind, Except.bind] at h
      · simp [readFile, FileTree.read, hentry, bind, Except.bind] at h
      · refine ⟨text, time, rfl, ?_⟩
        simp only [readFile, FileTree.read, hentry, bind, Except.bind] at h
        split at h
        · next hread =>
            cases h
            exact hread
        · cases h

/-- What could not be read cannot be read where the file is spared. -/
theorem readFile_error_of_spared (h : t.Spared t' f) (he : readFile t f = .error e) :
    readFile t' f = .error e ∧ t'.entry? f = t.entry? f := by
  have hentry := h.kept fun hmissing => by
    rw [readFile_eq_none.mpr hmissing] at he
    cases he
  exact ⟨(readFile_congr hentry).trans he, hentry⟩

/-- What is read of a file that was spared was there before. -/
theorem readFile_of_spared (h : t.Spared t' f) {old : Option Value}
    (hold : readFile t' f = .ok old) : readFile t f = .ok old := by
  by_cases hmissing : t.entry? f = .error .notFound
  · cases old with
    | none => exact readFile_eq_none.mpr hmissing
    | some v =>
        obtain ⟨text, time, hfile, -⟩ := readFile_eq_some hold
        rw [h.file hfile] at hmissing
        cases hmissing
  · rw [← readFile_congr (h.kept hmissing), hold]

theorem plan_of_error (h : readFile t f = .error e) : plan t f data = .error e := by
  simp [plan, h, bind, Except.bind]

/-- What is planned for a file that can be read: its value with the data merged into it, if the
file is new or its value changes. -/
theorem plan_of_ok {old : Option Value} (h : readFile t f = .ok old) : plan t f data =
    .ok (if ((old.getD (.object [])).merge data).2 || old.isNone then
      some ((old.getD (.object [])).merge data).1 else none) := by
  simp only [plan, h, bind, Except.bind]

/-- What is printed and read back is left as it is by the same data. -/
theorem plan_again {old : Option Value} {time : Nat} (hdata : data.Mergeable maxDepth)
    (hold : readFile t f = .ok old)
    (hentry : t'.entry? f =
      .ok (.file (some (((old.getD (.object [])).merge data).1.pretty ++ "\n")) time)) :
    plan t' f data = .ok none := by
  have hbase : (old.getD (.object [])).Within maxDepth ∧ (old.getD (.object [])).Tidy := by
    cases old with
    | none =>
        exact ⟨.object (List.forall_mem_nil _), .object List.nodup_nil (List.forall_mem_nil _)⟩
    | some v =>
        obtain ⟨text, time, -, hread⟩ := readFile_eq_some hold
        exact read_spec hread
  obtain ⟨w, hread, hunchanged⟩ := read_merge hbase.1 hbase.2 hdata
  have hfile : readFile t' f = .ok (some w) := by
    simp only [readFile, FileTree.read, hentry, bind, Except.bind, hread]
  rw [plan_of_ok hfile, Option.getD_some, hunchanged]
  rfl

/-- A value is written to a file, or where nothing is found, with the folders that are missing. -/
theorem exists_writeFile (ht : t.Closed) (hf : t.Seated f) {old : Option Value}
    (hold : readFile t f = .ok old) (v : Value) :
    ∃ t', writeFile t f v = (t', .ok ()) ∧ t.Laid t' f.place (v.pretty ++ "\n") ∧
      t'.entry? f = .ok (.file (some (v.pretty ++ "\n")) 0) := by
  obtain ⟨folder, name, hname, hfolder, rfl⟩ := hf
  have hfree : (∃ text time, t.entry? (folder.join name) = .ok (.file text time)) ∨
      t.Vacant (folder.join name) := by
    cases old with
    | none => exact .inr (hfolder.vacant_join ht hname (readFile_eq_none.mp hold))
    | some w =>
        obtain ⟨text, time, hentry, -⟩ := readFile_eq_some hold
        exact .inl ⟨some text, time, hentry⟩
  obtain ⟨outer, houter, hsame⟩ := Path.components_parent? (Path.components_join hname)
  obtain ⟨made, t', hmake, hwrite, hlaid, hentry⟩ :=
    FileTree.exists_laid ht hname hsame hfree (v.pretty ++ "\n")
  refine ⟨t', ?_, hlaid, hentry⟩
  simp only [writeFile, makeParent, houter, hmake, hwrite]

end File

section Step

variable {t t' : FileTree} {f : Path} {data : Value} {result : Except ConfigError Bool}

/-- How data are merged into a file: it cannot be read, it stays, or it is written. -/
inductive Merged (t : FileTree) (f : Path) (data : Value) :
    Except ConfigError Bool → FileTree → Prop where
  | failed {e : ConfigError} (h : readFile t f = .error e) : Merged t f data (.error e) t
  | kept {v : Value} (hold : readFile t f = .ok (some v)) (h : plan t f data = .ok none) :
      Merged t f data (.ok false) t
  | laid {t' : FileTree} {old : Option Value} {text : String} (hold : readFile t f = .ok old)
      (htext : text = ((old.getD (.object [])).merge data).1.pretty ++ "\n")
      (hlaid : t.Laid t' f.place text) (hentry : t'.entry? f = .ok (.file (some text) 0)) :
      Merged t f data (.ok true) t'

theorem exists_merged (ht : t.Closed) (hf : t.Seated f) (data : Value) :
    ∃ t' result, mergeInto t f data = (t', result) ∧ Merged t f data result t' := by
  cases hold : readFile t f with
  | error e => exact ⟨t, .error e, by simp only [mergeInto, plan_of_error hold], .failed hold⟩
  | ok old =>
      have hplan : plan t f data = _ := plan_of_ok hold
      split at hplan
      · obtain ⟨t', hwrite, hlaid, hentry⟩ := exists_writeFile ht hf hold
          ((old.getD (.object [])).merge data).1
        exact ⟨t', .ok true, by simp only [mergeInto, hplan, hwrite], .laid hold rfl hlaid hentry⟩
      · next hkept =>
          obtain ⟨v, rfl⟩ : ∃ v, old = some v := by
            cases old with
            | none => simp at hkept
            | some v => exact ⟨v, rfl⟩
          exact ⟨t, .ok false, by simp only [mergeInto, hplan], .kept hold hplan⟩

namespace Merged

variable (h : Merged t f data result t')
include h

theorem closed (ht : t.Closed) : t'.Closed := by
  cases h with
  | laid _ _ hlaid => exact hlaid.closed
  | _ => exact ht

theorem seated {g : Path} (hg : t.Seated g) : t'.Seated g := by
  cases h with
  | laid _ _ hlaid => exact hlaid.seated hg
  | _ => exact hg

theorem stands {place : Place} (hstands : t.get? place ≠ none) : t'.get? place ≠ none := by
  cases h with
  | laid _ _ hlaid => exact hlaid.stands hstands
  | _ => exact hstands

/-- Another file is spared. -/
theorem spared (ht : t.Closed) {g : Path} (hg : t.Seated g) (hne : g.place ≠ f.place) :
    t.Spared t' g := by
  cases h with
  | laid _ _ hlaid => exact hlaid.spared ht hg hne
  | _ => exact .refl t g

theorem holds (ht : t.Closed) {g : Path} (hg : t.Seated g) (hne : g.place ≠ f.place)
    (hclear : g.place <+: f.place → t.get? g.place ≠ none) : t'.holds g = t.holds g := by
  cases h with
  | laid _ _ hlaid => exact hlaid.holds ht hg hne hclear
  | _ => rfl

/-- Only a file that is written changes, and the folders in front of it are made. -/
theorem get? (place : Place) : t'.get? place = t.get? place ∨ result = .ok true ∧
    (place = f.place ∨ place <+: f.place ∧ t.get? place = none ∧ t'.get? place = some .folder) := by
  cases h with
  | laid _ _ hlaid =>
      by_cases hplace : place = f.place
      · exact .inr ⟨rfl, .inl hplace⟩
      · have hget := hlaid.get? place
        rw [if_neg hplace] at hget
        split at hget
        · next hnew => exact .inr ⟨rfl, .inr ⟨hnew.1, hnew.2, hget⟩⟩
        · exact .inl hget
  | _ => exact .inl rfl

end Merged

/-- The file of a target is the same where the same files for typed sources are found. -/
theorem Target.file_congr {x : Target} (h : ∀ root, x = .modules root →
    t'.holds (root.join "tsconfig.json") = t.holds (root.join "tsconfig.json")) :
    x.file t' = x.file t := by
  cases x with
  | modules root => simp only [file, moduleFile, h root rfl]
  | _ => rfl

/-- Merging data into the file of a target leaves it the file of the target. -/
theorem Target.file_of_merged {x : Target} (ht : t.Closed) (hx : ∀ f ∈ x.files, t.Seated f)
    (h : Merged t (x.file t) data result t') : x.file t' = x.file t := by
  refine file_congr fun root hroot => ?_
  subst hroot
  have hfile : file t (modules root) = moduleFile t root := rfl
  by_cases hold : t.holds (root.join "tsconfig.json") = true
  · cases h with
    | laid _ _ _ hentry =>
        rw [hfile, moduleFile, if_pos hold] at hentry
        rw [hold, FileTree.holds, hentry]
        rfl
    | _ => rfl
  · rw [hfile, moduleFile, if_neg hold] at h
    have hplaces : (root.join "tsconfig.json").place ≠ (root.join "jsconfig.json").place ∧
        ¬(root.join "tsconfig.json").place <+: (root.join "jsconfig.json").place := by
      rw [Path.place_join (by decide), Path.place_join (by decide)]
      simp
    exact h.holds ht (hx _ List.mem_cons_self) hplaces.1 fun hlies => absurd hlies hplaces.2

end Step

/-- What was done for a target. -/
structure Outcome where
  target : Target
  file : Path
  result : Except ConfigError Bool

/-- The report with some outcomes added. -/
def recordAll (report : ConfigReport) (outcomes : List Outcome) : ConfigReport :=
  outcomes.foldl (fun report o => record report o.file o.result) report

section Record

variable {outcomes : List Outcome} {report : ConfigReport}

/-- A report lists each outcome under its kind, in order. -/
theorem recordAll_eq (report : ConfigReport) (outcomes : List Outcome) :
    recordAll report outcomes =
      { written := report.written ++ outcomes.filterMap fun o =>
          match o.result with
          | .ok true => some o.file
          | _ => none
        unchanged := report.unchanged ++ outcomes.filterMap fun o =>
          match o.result with
          | .ok false => some o.file
          | _ => none
        errors := report.errors ++ outcomes.filterMap fun o =>
          match o.result with
          | .error e => some e
          | _ => none } := by
  induction outcomes generalizing report with
  | nil => simp [recordAll]
  | cons o outcomes ih =>
      have hcons : recordAll report (o :: outcomes) =
          recordAll (record report o.file o.result) outcomes := rfl
      rw [hcons, ih]
      rcases hresult : o.result with e | _ | _ <;> simp [record, hresult]

theorem mem_written_recordAll {f : Path} (h : f ∈ (recordAll {} outcomes).written) :
    ∃ o ∈ outcomes, o.result = .ok true ∧ o.file = f := by
  rw [recordAll_eq, List.nil_append] at h
  obtain ⟨o, ho, hfile⟩ := List.mem_filterMap.mp h
  split at hfile
  · next hresult => exact ⟨o, ho, hresult, Option.some.inj hfile⟩
  · cases hfile

theorem mem_unchanged_recordAll {f : Path} (h : f ∈ (recordAll {} outcomes).unchanged) :
    ∃ o ∈ outcomes, o.result = .ok false ∧ o.file = f := by
  rw [recordAll_eq, List.nil_append] at h
  obtain ⟨o, ho, hfile⟩ := List.mem_filterMap.mp h
  split at hfile
  · next hresult => exact ⟨o, ho, hresult, Option.some.inj hfile⟩
  · cases hfile

theorem written_of_mem {o : Outcome} (ho : o ∈ outcomes) (hresult : o.result = .ok true) :
    o.file ∈ (recordAll {} outcomes).written := by
  rw [recordAll_eq, List.nil_append]
  exact List.mem_filterMap.mpr ⟨o, ho, by rw [hresult]⟩

theorem errors_of_mem {o : Outcome} {e : ConfigError} (ho : o ∈ outcomes)
    (hresult : o.result = .error e) : e ∈ (recordAll {} outcomes).errors := by
  rw [recordAll_eq, List.nil_append]
  exact List.mem_filterMap.mpr ⟨o, ho, by rw [hresult]⟩

/-- What is written does not depend on what was reported before. -/
theorem exists_foldl_addTarget (data : Target → Value) (t : FileTree) (xs : List Target) :
    ∃ t' outcomes, ∀ report,
      xs.foldl (addTarget data) (t, report) = (t', recordAll report outcomes) := by
  induction xs generalizing t with
  | nil => exact ⟨t, [], fun report => rfl⟩
  | cons x xs ih =>
      obtain ⟨t', outcomes, hrun⟩ := ih (mergeInto t (x.file t) (data x)).1
      exact ⟨t', ⟨x, x.file t, (mergeInto t (x.file t) (data x)).2⟩ :: outcomes,
        fun report => hrun _⟩

end Record

end DerivedConfig

end ComponentAtlas
