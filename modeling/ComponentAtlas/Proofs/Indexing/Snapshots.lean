import ComponentAtlas.Proofs.Files.Growth
import ComponentAtlas.Proofs.Indexing.Versions
import ComponentAtlas.Proofs.Tag.Stored

/-!
# What snapshots hold

Saving writes one file and makes the folders on the way to it. The file is not that of a component,
and what is read from it afterwards was saved for the same dialect: a snapshot of honest tags
gives back honest tags.
-/

namespace ComponentAtlas

open ComponentAtlas.Text

namespace Dialect

theorem plainName_word (d : Dialect) : PlainName d.word := by
  cases d <;> decide

theorem word_injective {d e : Dialect} (h : d.word = e.word) : d = e := by
  have hword := ofWord?_word d
  rw [h, ofWord?_word e] at hword
  exact (Option.some.inj hword).symm

end Dialect

namespace Snapshot

theorem place_file (folder : Path) (d : Dialect) :
    (file folder d).place = folder.place ++ ["indexes", d.word, "custom-components.json"] := by
  rw [file, Path.place_join (by decide), Path.place_join d.plainName_word,
    Path.place_join (by decide)]
  simp

theorem place_file_ne_nil (folder : Path) (d : Dialect) : (file folder d).place ≠ [] := by
  rw [place_file]
  simp

/-- One place holds the snapshots of one dialect. -/
theorem dialect_of_place {folder other : Path} {d e : Dialect}
    (h : (file folder d).place = (file other e).place) : d = e := by
  rw [place_file, place_file] at h
  have hwords := (List.append_inj' h rfl).2
  simp only [List.cons.injEq] at hwords
  exact Dialect.word_injective hwords.2.1

/-- A snapshot does not stand in the place of an entry file. -/
theorem place_ne_entry (folder : Path) (d : Dialect) (outer : Place) (name ext : String) :
    outer ++ [name, name ++ "." ++ ext] ≠ (file folder d).place := by
  intro h
  have hsplit : folder.place ++ ["indexes", d.word, "custom-components.json"] =
      (folder.place ++ ["indexes"]) ++ [d.word, "custom-components.json"] := by
    simp
  rw [place_file, hsplit] at h
  have hnames := (List.append_inj' h rfl).2
  simp only [List.cons.injEq, and_true] at hnames
  obtain ⟨rfl, hfile⟩ := hnames
  have hlist := congrArg (fun s : String => s.toList.head?) hfile
  cases d <;> simp [Dialect.word] at hlist

section Save

variable {t t' : FileTree} {folder : Path} {d : Dialect} {tags : List Tag}

/-- Saving makes the folders that are missing and then writes the file. -/
theorem save_steps (h : save t folder d tags = .ok t') :
    ∃ middle : FileTree, (middle = t ∨ ∃ p, t.createFolders p = .ok middle) ∧
      middle.write (file folder d) (write tags) = .ok t' := by
  unfold save at h
  dsimp only at h
  split at h
  · next p hp =>
      cases hmiddle : ensureFolder t p with
      | error cause =>
          rw [hmiddle] at h
          cases h
      | ok middle =>
          rw [hmiddle] at h
          refine ⟨middle, ?_, h⟩
          unfold ensureFolder at hmiddle
          split at hmiddle
          · exact .inl (Except.ok.inj hmiddle).symm
          · exact .inr ⟨p, hmiddle⟩
  · exact ⟨t, .inl rfl, h⟩

/-- Saving leaves what stands, apart from new folders and one file. -/
theorem save_eq_ok (h : save t folder d tags = .ok t') :
    ∃ middle, t.Extends middle ∧ (t.WellNamed → middle.WellNamed) ∧
      t' = middle.put (file folder d).place (.file (some (write tags)) 0) := by
  obtain ⟨middle, hmade, hwrite⟩ := save_steps h
  obtain ⟨hextends, hnamed⟩ : t.Extends middle ∧ (t.WellNamed → middle.WellNamed) := by
    rcases hmade with rfl | ⟨p, hmade⟩
    · exact ⟨.refl middle, id⟩
    · exact FileTree.createFolders_eq_ok hmade
  exact ⟨middle, hextends, hnamed, (FileTree.write_eq_ok hwrite).1⟩

theorem wellNamed_save (h : save t folder d tags = .ok t') (ht : t.WellNamed) : t'.WellNamed := by
  obtain ⟨middle, -, hnamed, rfl⟩ := save_eq_ok h
  exact (hnamed ht).put fun name hname => Path.plainName_of_mem_place hname

/-- A file that stands after saving is the snapshot or stood there before. -/
theorem file_of_save (h : save t folder d tags = .ok t') {place : Place} {text : Option String}
    {time : Nat} (hfile : t'.get? place = some (.file text time)) :
    (place = (file folder d).place ∧ text = some (write tags)) ∨
      (place ≠ (file folder d).place ∧ t.get? place = some (.file text time)) := by
  obtain ⟨middle, hextends, -, rfl⟩ := save_eq_ok h
  by_cases hplace : place = (file folder d).place
  · subst hplace
    rw [FileTree.get?_put_self (place_file_ne_nil folder d)] at hfile
    cases hfile
    exact .inl ⟨rfl, rfl⟩
  · rw [FileTree.get?_put_of_ne hplace] at hfile
    exact .inr ⟨hplace, hextends.file hfile⟩

theorem shows_save (h : save t folder d tags = .ok t') {V : Versions} (ht : t.Shows V) :
    t'.Shows V := by
  intro e outer name ext hext text time hfile
  rcases file_of_save h hfile with ⟨hplace, -⟩ | ⟨-, hold⟩
  · exact absurd hplace (place_ne_entry folder d outer name ext)
  · exact ht e outer name ext hext text time hold

end Save

/-- The tags of a snapshot are those of the text of its file. -/
theorem load_eq_ok {t : FileTree} {folder : Path} {d : Dialect} {tags : List Tag}
    (h : load t folder d = .ok tags) :
    ∃ text time, t.get? (file folder d).place = some (.file (some text) time) ∧
      Stored.readTags? text = some tags := by
  unfold load at h
  split at h
  · split at h
    · cases h
    · next text hread =>
        have hsome : (t.read (file folder d)).toOption = some text := by
          rw [hread]
          rfl
        obtain ⟨time, hfile⟩ := FileTree.file_of_read hsome
        split at h
        · next hparse =>
            cases h
            exact ⟨text, time, FileTree.get?_place hfile, hparse⟩
        · cases h
  · cases h

/-- Snapshots of a folder from which only tags with some property can be read. -/
def Lists (P : Dialect → Tag → Prop) (t : FileTree) (folder : Path) : Prop :=
  ∀ (d : Dialect) (text : String) (time : Nat) (tags : List Tag),
    t.get? (file folder d).place = some (.file (some text) time) →
      Stored.readTags? text = some tags → ∀ tag ∈ tags, P d tag

namespace Lists

variable {P : Dialect → Tag → Prop} {t t' : FileTree} {folder : Path} {d : Dialect}
  {tags : List Tag}

theorem of_load (h : Lists P t folder) (hload : load t folder d = .ok tags) :
    ∀ tag ∈ tags, P d tag := by
  obtain ⟨text, time, hfile, hread⟩ := load_eq_ok hload
  exact h d text time tags hfile hread

theorem of_loadOrEmpty (h : Lists P t folder) : ∀ tag ∈ loadOrEmpty t folder d, P d tag := by
  intro tag htag
  unfold loadOrEmpty at htag
  cases hload : load t folder d with
  | error cause =>
      rw [hload] at htag
      cases htag
  | ok tags =>
      rw [hload] at htag
      exact h.of_load hload tag htag

/-- Saving tags with the property keeps the snapshots of every folder as they should be. -/
theorem save {other : Path} (h : Lists P t other) (hsave : save t folder d tags = .ok t')
    (htags : ∀ tag ∈ tags, P d tag) : Lists P t' other := by
  intro e text time stored hfile hread tag htag
  rcases file_of_save hsave hfile with ⟨hplace, htext⟩ | ⟨-, hold⟩
  · obtain rfl := dialect_of_place hplace
    obtain rfl := Option.some.inj htext
    rw [Stored.readTags?_writeTags hread, List.mem_mergeSort] at htag
    exact htags tag htag
  · exact h e text time stored hold hread tag htag

end Lists

/-- Snapshots of a folder from which only honest tags can be read. -/
def Honest (V : Versions) (t : FileTree) (folder : Path) : Prop :=
  ∀ (d : Dialect) (text : String) (time : Nat) (tags : List Tag),
    t.get? (file folder d).place = some (.file (some text) time) →
      Stored.readTags? text = some tags → ∀ tag ∈ tags, V.Honest d tag

theorem honest_iff {V : Versions} {t : FileTree} {folder : Path} :
    Honest V t folder ↔ Lists V.Honest t folder := .rfl

end Snapshot

end ComponentAtlas
