import ComponentAtlas.Proofs.Files.Growth
import Mathlib.Data.List.Induction

/-!
# Closed trees

In a closed tree whatever stands somewhere stands in a folder. A path without steps upwards then
leads exactly to what stands at the place that it names. Making folders and writing a file into a
folder keep a tree closed.
-/

namespace ComponentAtlas

open ComponentAtlas.Text

/-- An absolute path without steps upwards. -/
def Path.Straight (p : Path) : Prop :=
  ∃ names : List String, p.components = .root :: names.map .name

theorem Path.Straight.join {p : Path} (h : p.Straight) {name : String} (hname : PlainName name) :
    (p.join name).Straight := by
  obtain ⟨names, hnames⟩ := h
  exact ⟨names ++ [name], by rw [components_join hname, hnames]; simp⟩

namespace FileTree

/-- A tree in which every entry stands in a folder. -/
def Closed (t : FileTree) : Prop :=
  ∀ e ∈ t.entries, t.get? e.1.dropLast = some .folder

instance (t : FileTree) : Decidable t.Closed :=
  inferInstanceAs (Decidable (∀ e ∈ t.entries, t.get? e.1.dropLast = some .folder))

namespace Closed

variable {t t' : FileTree} (h : t.Closed)
include h

theorem folder {outer : Place} {name : String} {e : Entry}
    (he : t.get? (outer ++ [name]) = some e) : t.get? outer = some .folder := by
  have hfolder := h _ (mem_entries_of_get? (by simp) he)
  rwa [List.dropLast_concat] at hfolder

/-- Around a folder there are folders only. -/
theorem folder_dropLast {here : Place} (hhere : t.get? here = some .folder) :
    t.get? here.dropLast = some .folder := by
  rcases List.eq_nil_or_concat here with rfl | ⟨outer, name, rfl⟩
  · exact hhere
  · rw [List.concat_eq_append, List.dropLast_concat]
    rw [List.concat_eq_append] at hhere
    exact h.folder hhere

/-- Whatever stands below a place makes it a folder. -/
theorem folder_of_append {here names : Place} (hnames : names ≠ []) {e : Entry}
    (he : t.get? (here ++ names) = some e) : t.get? here = some .folder := by
  induction names using List.reverseRecOn generalizing e with
  | nil => exact absurd rfl hnames
  | append_singleton front last ih =>
      rw [← List.append_assoc] at he
      have hfront := h.folder he
      cases front with
      | nil => rwa [List.append_nil] at hfront
      | cons first more => exact ih (List.cons_ne_nil _ _) hfront

/-- Names lead from a folder to whatever stands there. -/
theorem walkSteps_names {here : Place} {names : List String} {e : Entry}
    (he : t.get? (here ++ names) = some e) :
    t.walkSteps here (names.map .name) = some (here ++ names) := by
  induction names generalizing here with
  | nil => simp [walkSteps]
  | cons name rest ih =>
      have hsplit : here ++ name :: rest = (here ++ [name]) ++ rest := by simp
      have hfolder := h.folder_of_append (List.cons_ne_nil name rest) he
      rw [hsplit] at he ⊢
      rw [List.map_cons, walkSteps, if_pos hfolder]
      exact ih he

/-- A straight path leads to the place that it names if anything stands there. -/
theorem reach_of_get? {p : Path} (hp : p.Straight) {e : Entry} (he : t.get? p.place = some e) :
    t.reach p.components = some p.place := by
  obtain ⟨names, hnames⟩ := hp
  have hplace : p.place = names := by
    have hsteps : p.components = [.root] ++ names.map .name := hnames
    exact Path.place_of_components hsteps
  rw [hplace] at he ⊢
  rw [hnames, reach]
  exact h.walkSteps_names he

theorem isFolder_iff_get? {p : Path} (hp : p.Straight) :
    t.isFolder p = true ↔ t.get? p.place = some .folder := by
  rw [isFolder_iff]
  refine ⟨get?_place, fun he => ?_⟩
  exact entry?_folder_iff.mpr ⟨_, h.reach_of_get? hp he, he⟩

/-- Where a straight path finds no folder there is none. -/
theorem not_folder {p : Path} (hp : p.Straight) (hfolder : t.isFolder p = false) :
    t.get? p.place ≠ some .folder := by
  intro he
  rw [(h.isFolder_iff_get? hp).mpr he] at hfolder
  cases hfolder

end Closed

section Put

variable {t t' : FileTree}

/-- An entry that is put into a folder, in place of no folder, keeps a tree closed. -/
theorem Closed.put (h : t.Closed) {outer : Place} {name : String} {e : Entry}
    (houter : t.get? outer = some .folder) (hplace : t.get? (outer ++ [name]) ≠ some .folder) :
    (t.put (outer ++ [name]) e).Closed := by
  intro entry hentry
  have hnext : ∀ place, t.get? place = some .folder →
      (t.put (outer ++ [name]) e).get? place = some .folder := by
    intro place hfolder
    have hne : place ≠ outer ++ [name] := by
      rintro rfl
      exact hplace hfolder
    rw [get?_put_of_ne hne]
    exact hfolder
  rcases List.mem_cons.mp hentry with rfl | hold
  · refine hnext _ ?_
    rw [List.dropLast_concat]
    exact houter
  · exact hnext _ (h entry (List.mem_filter.mp hold).1)

theorem makeFolders_closed {here : Place} {pieces : List String} (h : t.Closed)
    (hhere : t.get? here = some .folder) (hmake : t.makeFolders here pieces = .ok t') :
    t'.Closed := by
  induction pieces generalizing here t with
  | nil =>
      cases hmake
      exact h
  | cons piece rest ih =>
      rw [makeFolders] at hmake
      split at hmake
      · exact ih h hhere hmake
      · split at hmake
        · exact ih h (h.folder_dropLast hhere) hmake
        · dsimp only at hmake
          split at hmake
          · next hnext => exact ih h hnext hmake
          · cases hmake
          · next hnone =>
              have hput := h.put (e := .folder) hhere (hnone ▸ (Option.some_ne_none _).symm)
              exact ih hput (get?_put_self (by simp)) hmake

theorem createFolders_closed {p : Path} (h : t.Closed) (hmake : t.createFolders p = .ok t') :
    t'.Closed := by
  unfold createFolders at hmake
  split at hmake
  · cases hmake
  · exact makeFolders_closed h (get?_root t) hmake

/-- A text is written into a folder. -/
theorem folder_of_write {p : Path} {name : String} (hname : PlainName name) {text : String}
    (h : t.write (p.join name) text = .ok t') : t.get? p.place = some .folder := by
  cases hplace : t.resolve (p.join name) with
  | error cause =>
      rw [write, hplace] at h
      cases h
  | ok place =>
      have hreach := reach_of_resolve hplace
      have hsteps : (p.join name).components = p.components ++ [.name name] :=
        Path.components_join hname
      rw [hsteps, reach_concat] at hreach
      obtain ⟨outer, houter, hfolder, -⟩ := hreach
      rw [reach_eq houter] at hfolder
      exact hfolder

end Put

end FileTree

end ComponentAtlas
