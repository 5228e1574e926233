import ComponentAtlas.Session.DerivedConfig
import ComponentAtlas.Proofs.Files.Laying
import ComponentAtlas.Proofs.Json.Remerging
import Mathlib.Data.List.Infix

/-!
# Targets of derived configuration

The files of two targets have different names or stand at different roots, so they are different
files. One lies in the other only if a root does: then writing one makes a folder of the other. The
data of a target can be merged into any document time and again.
-/

namespace ComponentAtlas

open ComponentAtlas.Json

/-- Two names with a slash between them are joined one after the other. -/
theorem Path.join_join {p : Path} {outer inner : String} (houter : PlainName outer)
    (hinner : PlainName inner) : p.join (outer ++ "/" ++ inner) = (p.join outer).join inner := by
  have hhead : ∀ {name : String}, PlainName name → name.toList.head? ≠ some '/' :=
    fun hname hslash => hname.noSlash (List.mem_of_mem_head? hslash)
  have hjoin : ∃ front, ∀ name : String, name.toList.head? ≠ some '/' →
      p.join name = ⟨front ++ name⟩ := by
    by_cases hend : p.text.isEmpty ∨ p.text.toList.getLast? = some '/'
    · exact ⟨p.text, fun name hname => by rw [join, if_neg hname, if_pos hend]⟩
    · exact ⟨p.text ++ "/", fun name hname => by rw [join, if_neg hname, if_neg hend]⟩
  obtain ⟨front, hfront⟩ := hjoin
  have hlast : ¬((front ++ outer).isEmpty = true ∨
      (front ++ outer).toList.getLast? = some '/') := by
    rw [String.isEmpty_iff, ← String.toList_inj, String.toList_append]
    rintro (hempty | hslash)
    · exact houter.ne_nil (List.append_eq_nil_iff.mp hempty).2
    · rw [List.getLast?_append_of_ne_nil _ houter.ne_nil] at hslash
      exact houter.noSlash (List.mem_of_getLast? hslash)
  have hboth : (outer ++ "/" ++ inner).toList.head? ≠ some '/' := by
    rw [String.toList_append, String.toList_append, List.append_assoc,
      List.head?_append_of_ne_nil _ houter.ne_nil]
    exact hhead houter
  rw [hfront _ hboth, hfront _ (hhead houter), join, if_neg (hhead hinner), if_neg hlast]
  simp only [String.append_assoc]

namespace DerivedConfig

namespace Target

/-- The root at which the file of a target stands. -/
def root : Target → Path
  | modules root => root
  | lint root => root
  | editor first => first

/-- The files that may be those of a target. -/
def files : Target → List Path
  | modules root => [root.join "tsconfig.json", root.join "jsconfig.json"]
  | lint root => [root.join ".eslintrc.json"]
  | editor first => [first.join ".vscode/settings.json"]

/-- The folder of the files of a target. -/
def folder : Target → Path
  | modules root => root
  | lint root => root
  | editor first => first.join ".vscode"

/-- The names that lead from the root of a target to its files. -/
def tails : Target → List (List String)
  | modules _ => [["tsconfig.json"], ["jsconfig.json"]]
  | lint _ => [[".eslintrc.json"]]
  | editor _ => [[".vscode", "settings.json"]]

/-- The names that lead to the files of any target. -/
def allTails : List (List String) :=
  [["tsconfig.json"], ["jsconfig.json"], [".eslintrc.json"], [".vscode", "settings.json"]]

variable {x y : Target} {t : FileTree} {f g : Path} {tail : List String}

theorem mem_allTails (h : tail ∈ x.tails) : tail ∈ allTails := by
  cases x <;> revert h <;> simp only [tails, allTails, List.mem_cons] <;> tauto

theorem file_mem_files (x : Target) (t : FileTree) : x.file t ∈ x.files := by
  cases x with
  | modules root =>
      simp only [file, files, moduleFile]
      split <;> simp
  | lint root => exact List.mem_cons_self
  | editor first => exact List.mem_cons_self

theorem join_settings (p : Path) :
    p.join ".vscode/settings.json" = (p.join ".vscode").join "settings.json" := by
  have hinner : ".vscode/settings.json" = ".vscode" ++ "/" ++ "settings.json" := by decide
  rw [hinner]
  exact Path.join_join (by decide) (by decide)

/-- A file of a target stands where names lead from its root. -/
theorem place_of_mem_files (hf : f ∈ x.files) :
    ∃ tail ∈ x.tails, f.place = x.root.place ++ tail := by
  cases x with
  | modules root =>
      rcases List.mem_cons.mp hf with rfl | hf
      · exact ⟨_, List.mem_cons_self, Path.place_join (by decide)⟩
      · obtain rfl := List.mem_singleton.mp hf
        exact ⟨_, List.mem_cons_of_mem _ List.mem_cons_self, Path.place_join (by decide)⟩
  | lint root =>
      obtain rfl := List.mem_singleton.mp hf
      exact ⟨_, List.mem_cons_self, Path.place_join (by decide)⟩
  | editor first =>
      obtain rfl := List.mem_singleton.mp hf
      refine ⟨_, List.mem_cons_self, ?_⟩
      rw [join_settings, Path.place_join (by decide), Path.place_join (by decide),
        List.append_assoc]
      rfl

/-- The files of a target are names that are joined to its folder. -/
theorem join_of_mem_files (hf : f ∈ x.files) : ∃ name, PlainName name ∧ f = x.folder.join name := by
  cases x with
  | modules root =>
      rcases List.mem_pair.mp hf with rfl | rfl
      · exact ⟨_, by decide, rfl⟩
      · exact ⟨_, by decide, rfl⟩
  | lint root => exact ⟨_, by decide, List.mem_singleton.mp hf⟩
  | editor first => exact ⟨_, by decide, (List.mem_singleton.mp hf).trans (join_settings first)⟩

theorem anchored_folder (hx : t.Anchored x.root) : t.Anchored x.folder := by
  cases x with
  | modules root => exact hx
  | lint root => exact hx
  | editor first => exact hx.join (by decide)

theorem seated (hx : t.Anchored x.root) (hf : f ∈ x.files) : t.Seated f := by
  obtain ⟨name, hname, hjoin⟩ := join_of_mem_files hf
  exact ⟨x.folder, name, hname, anchored_folder hx, hjoin⟩

theorem ne_nil_of_mem_allTails : ∀ a ∈ allTails, a ≠ [] := by
  decide

/-- The last names of files tell them apart from each other and from the folders around them. -/
theorem tail_eq_of_last : ∀ a ∈ allTails, ∀ b ∈ allTails, ∀ front, front <+: b → front ≠ [] →
    a.getLast? = front.getLast? → a = b ∧ front = b := by
  have hinits : ∀ a ∈ allTails, ∀ b ∈ allTails, ∀ front ∈ b.inits, front ≠ [] →
      a.getLast? = front.getLast? → a = b ∧ front = b := by
    decide
  exact fun a ha b hb front hfront => hinits a ha b hb front (List.mem_inits front b |>.mpr hfront)

/-- A file that lies in a file of a target is that file, or the root of the target lies in it. -/
theorem eq_or_prefix_root (hf : f ∈ x.files) (hg : g ∈ y.files) (hlies : f.place <+: g.place) :
    f.place = g.place ∨ f.place <+: y.root.place := by
  obtain ⟨a, ha, hfa⟩ := place_of_mem_files hf
  obtain ⟨b, hb, hgb⟩ := place_of_mem_files hg
  rw [hgb] at hlies ⊢
  rcases List.prefix_or_prefix_of_prefix hlies (List.prefix_append _ _) with
    hroot | ⟨front, hfront⟩
  · exact .inr hroot
  · by_cases hnil : front = []
    · rw [← hfront, hnil, List.append_nil]
      exact .inr List.prefix_rfl
    · rw [← hfront, List.prefix_append_right_inj] at hlies
      have hlast : a.getLast? = front.getLast? := by
        rw [← List.getLast?_append_of_ne_nil x.root.place (ne_nil_of_mem_allTails _
          (mem_allTails ha)), ← hfa, ← hfront, List.getLast?_append_of_ne_nil _ hnil]
      obtain ⟨-, rfl⟩ := tail_eq_of_last a (mem_allTails ha) b (mem_allTails hb) front hlies
        hnil hlast
      exact .inl hfront.symm

/-- Two targets at different roots, or with files of different names. -/
def Apart (x y : Target) : Prop :=
  x.root.place = y.root.place → ∀ tail ∈ x.tails, tail ∉ y.tails

theorem Apart.ne (h : x.Apart y) (hf : f ∈ x.files) (hg : g ∈ y.files) : f.place ≠ g.place := by
  obtain ⟨a, ha, hfa⟩ := place_of_mem_files hf
  obtain ⟨b, hb, hgb⟩ := place_of_mem_files hg
  intro heq
  rw [hfa, hgb] at heq
  have hlast := congrArg List.getLast? heq
  have hne := ne_nil_of_mem_allTails
  rw [List.getLast?_append_of_ne_nil _ (hne _ (mem_allTails ha)),
    List.getLast?_append_of_ne_nil _ (hne _ (mem_allTails hb))] at hlast
  obtain ⟨rfl, -⟩ := tail_eq_of_last a (mem_allTails ha) b (mem_allTails hb) b List.prefix_rfl
    (hne _ (mem_allTails hb)) hlast
  exact h (List.append_inj_left' heq rfl) _ ha hb

end Target

section Targets

variable {t : FileTree} {w : Workspace} {roots : NamespaceRoots} {x : Target}

/-- The roots at which files are derived. -/
def rootsOf (w : Workspace) (roots : NamespaceRoots) : List Path :=
  roots.lwc ++ w.roots.head?.toList

theorem mem_targets (h : x ∈ targets w roots) : x.root ∈ rootsOf w roots ∧
    ∀ root, x = .modules root → root ∈ roots.lwc := by
  rcases List.mem_append.mp h with h | h
  · obtain ⟨root, hroot, hx⟩ := List.mem_flatMap.mp h
    rcases List.mem_pair.mp hx with rfl | rfl
    · refine ⟨List.mem_append_left _ hroot, fun root' heq => ?_⟩
      cases heq
      exact hroot
    · exact ⟨List.mem_append_left _ hroot, fun root' heq => nomatch heq⟩
  · obtain ⟨first, hfirst, rfl⟩ := Option.map_eq_some_iff.mp (Option.mem_toList.mp h)
    exact ⟨List.mem_append_right _ (Option.mem_toList.mpr hfirst), fun root heq => nomatch heq⟩

/-- Targets at roots of different places are apart. -/
theorem targets_apart (h : (roots.lwc.map Path.place).Nodup) :
    (targets w roots).Pairwise Target.Apart := by
  refine List.pairwise_append.mpr ⟨?_, ?_, ?_⟩
  · refine List.pairwise_flatMap.mpr ⟨fun root _ => ?_, ?_⟩
    · refine List.pairwise_pair.mpr fun _ => ?_
      simp [Target.tails]
    · refine (List.pairwise_map.mp h).imp fun hne x hx y hy heq => ?_
      have hroot : ∀ root : Path, ∀ z ∈ [Target.modules root, Target.lint root],
          z.root = root := by
        simp [Target.root]
      rw [hroot _ x hx, hroot _ y hy] at heq
      exact absurd heq hne
  · cases w.roots.head? with
    | none => exact List.Pairwise.nil
    | some first => exact List.pairwise_singleton _ _
  · intro x hx y hy _
    obtain ⟨root, -, hx⟩ := List.mem_flatMap.mp hx
    obtain ⟨first, -, rfl⟩ := Option.map_eq_some_iff.mp (Option.mem_toList.mp hy)
    rcases List.mem_pair.mp hx with rfl | rfl <;> simp [Target.tails]

/-- What the roots must be like for files to be derived at them without surprises: no way to a root
takes a step upwards behind a missing folder, no two roots of web components are the same place,
and no root lies in a missing file for typed sources, which would be a folder as soon as something
is written at that root. -/
structure Settled (t : FileTree) (w : Workspace) (roots : NamespaceRoots) : Prop where
  anchored : ∀ root ∈ rootsOf w roots, t.Anchored root
  distinct : (roots.lwc.map Path.place).Nodup
  clear : ∀ root ∈ roots.lwc, ∀ inner ∈ rootsOf w roots,
    (root.join "tsconfig.json").place <+: inner.place →
      t.get? (root.join "tsconfig.json").place ≠ none

/-- Targets with different files, none of which lies in a missing file for typed sources. -/
structure Spaced (t : FileTree) (xs : List Target) : Prop where
  seated : ∀ x ∈ xs, ∀ f ∈ x.files, t.Seated f
  distinct : xs.Pairwise fun x y => ∀ f ∈ x.files, ∀ g ∈ y.files, f.place ≠ g.place
  clear : ∀ root, .modules root ∈ xs → ∀ y ∈ xs, ∀ g ∈ y.files,
    (root.join "tsconfig.json").place ≠ g.place →
      (root.join "tsconfig.json").place <+: g.place →
        t.get? (root.join "tsconfig.json").place ≠ none

theorem Settled.spaced (h : Settled t w roots) : Spaced t (targets w roots) where
  seated x hx f hf := Target.seated (h.anchored _ (mem_targets hx).1) hf
  distinct := by
    refine (targets_apart h.distinct).imp ?_
    intro x y hapart f hf g hg
    exact hapart.ne hf hg
  clear root hroot y hy g hg hne hlies := by
    have htyped : root.join "tsconfig.json" ∈ (Target.modules root).files := List.mem_cons_self
    refine h.clear root ((mem_targets hroot).2 root rfl) _ (mem_targets hy).1 ?_
    exact (Target.eq_or_prefix_root htyped hg hlies).resolve_left hne

end Targets

section Data

variable {depth : Nat}

theorem mergeable_moduleData (r : Registry) (root : Path) :
    (moduleData r root).Mergeable (depth + 4) := by
  have hpaths : (Value.object (modulePaths r root)).Mergeable (depth + 2) := by
    refine .object (Fields.nodup_keys_ofPairs _) fun f hf => ?_
    obtain ⟨pair, hpair, hvalue⟩ := Fields.mem_ofPairs hf
    obtain ⟨tag, -, htag⟩ := List.mem_filterMap.mp hpair
    unfold modulePath? at htag
    split at htag
    · obtain ⟨relative, -, rfl⟩ := Option.map_eq_some_iff.mp htag
      rw [hvalue]
      exact .array (List.forall_mem_singleton.mpr (.string relative))
    · cases htag
  refine .object (by simp [Fields.keys]) (List.forall_mem_cons.mpr
    ⟨.object (by simp [Fields.keys]) ?_,
      List.forall_mem_singleton.mpr (.array (List.forall_mem_singleton.mpr (.string _)))⟩)
  exact List.forall_mem_cons.mpr ⟨.bool true, List.forall_mem_cons.mpr ⟨.string ".",
    List.forall_mem_singleton.mpr hpaths⟩⟩

theorem mergeable_lintData : lintData.Mergeable (depth + 2) :=
  .object (by decide) (List.forall_mem_singleton.mpr
    (.array (List.forall_mem_singleton.mpr (.string _))))

theorem mergeable_editorData (s : Settings) : (editorData s).Mergeable (depth + 2) := by
  refine .object (by simp [Fields.keys]) (List.forall_mem_cons.mpr ⟨.object (by decide) ?_,
    List.forall_mem_singleton.mpr (.object (by simp [Fields.keys])
      (List.forall_mem_singleton.mpr (.bool true)))⟩)
  intro f hf
  obtain ⟨extension, -, rfl⟩ := List.mem_map.mp hf
  exact .string "html"

/-- The data of every target can be merged into any document time and again. -/
theorem Target.mergeable (x : Target) (r : Registry) (s : Settings) :
    (x.data r s).Mergeable maxDepth := by
  cases x with
  | modules root => exact mergeable_moduleData r root
  | lint root => exact mergeable_lintData
  | editor first => exact mergeable_editorData s

end Data

end DerivedConfig

end ComponentAtlas
