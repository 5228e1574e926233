import ComponentAtlas.Proofs.Files.Distinct
import ComponentAtlas.Proofs.Indexing.Relevance
import Mathlib.Data.List.Pairwise

/-!
# What the search for namespace roots finds

A folder is found when it is a root and a chain of folders leads to it that is short enough and
has no root in front of it. Two folders that are found part from each other at the names of two
siblings, the first of them in the order of names, so that none lies in another.
-/

namespace ComponentAtlas

open ComponentAtlas.Text

namespace Path

/-- Neither of two paths leads to or into the folder that the other one names. -/
def Apart (p q : Path) : Prop :=
  ¬p.place <+: q.place ∧ ¬q.place <+: p.place

instance (p q : Path) : Decidable (Apart p q) :=
  inferInstanceAs (Decidable (¬p.place <+: q.place ∧ ¬q.place <+: p.place))

theorem Apart.symm {p q : Path} (h : p.Apart q) : q.Apart p :=
  ⟨h.2, h.1⟩

/-- What lies in folders that are apart is apart. -/
theorem Apart.inside {p q p' q' : Path} (h : p.Apart q) (hp : p.place <+: p'.place)
    (hq : q.place <+: q'.place) : p'.Apart q' := by
  constructor
  · intro hpre
    rcases List.prefix_or_prefix_of_prefix (hp.trans hpre) hq with hpq | hqp
    · exact h.1 hpq
    · exact h.2 hqp
  · intro hpre
    rcases List.prefix_or_prefix_of_prefix hp (hq.trans hpre) with hpq | hqp
    · exact h.1 hpq
    · exact h.2 hqp

/-- Two paths that have the same steps up to the names of two siblings, in their order. -/
def Parts (p q : Path) : Prop :=
  ∃ (front : List Step) (a b : String) (back back' : List String),
    p.components = front ++ (a :: back).map .name ∧
      q.components = front ++ (b :: back').map .name ∧ a < b

theorem Parts.apart {p q : Path} (h : p.Parts q) : p.Apart q := by
  obtain ⟨front, a, b, back, back', hp, hq, hlt⟩ := h
  rw [Apart, place_of_components hp, place_of_components hq, List.prefix_append_right_inj,
    List.prefix_append_right_inj]
  constructor
  · intro hpre
    exact hlt.ne (List.cons_prefix_cons.mp hpre).1
  · intro hpre
    exact hlt.ne (List.cons_prefix_cons.mp hpre).1.symm

theorem Parts.before {p q : Path} (h : p.Parts q) : p.before q = true := by
  obtain ⟨front, a, b, back, back', hp, hq, hlt⟩ := h
  rw [Path.before, hp, hq]
  clear hp hq
  induction front with
  | nil =>
      have hne : Step.name a ≠ .name b := fun hsame => hlt.ne (Step.name.inj hsame)
      simp only [List.nil_append, List.map_cons, listBefore, if_neg hne, Step.before]
      exact decide_eq_true hlt
  | cons step front ih =>
      simpa [listBefore] using ih

end Path

namespace NamespaceRoots

/-- A step from a folder into a folder that stands in it and is not excluded. -/
def Enters (t : FileTree) (e : Exclusion) (outer inner : Path) : Prop :=
  ∃ name, PlainName name ∧ e.matchesName name = false ∧ t.isFolder (outer.join name) = true ∧
    inner = outer.join name

/-- A folder holds a component in a folder that is not excluded. -/
def Houses (t : FileTree) (e : Exclusion) (d : Dialect) (folder : Path) : Prop :=
  ∃ name, PlainName name ∧ e.matchesName name = false ∧ t.isFolder (folder.join name) = true ∧
    ∃ ext ∈ d.entryExtensions, t.isFile (folder.entryOf name ext) = true

/-- The folders that are roots of a dialect. -/
inductive IsRoot (t : FileTree) (e : Exclusion) : Dialect → Path → Prop
  | aura {folder : Path} (hfolder : t.isFolder folder = true)
      (hhouses : Houses t e .aura folder) : IsRoot t e .aura folder
  | lwc {folder : Path} (hfolder : t.isFolder folder = true)
      (hnot : ¬Houses t e .aura folder)
      (hroot : folder.fileName? = some "lwc" ∨ Houses t e .lwc folder) : IsRoot t e .lwc folder

/-- A chain of folders from a start to a root, with at most so many steps and no root in front. -/
def Leads (t : FileTree) (e : Exclusion) (depth : Nat) (start : Path) (d : Dialect)
    (folder : Path) : Prop :=
  ∃ steps : List Path, steps.length ≤ depth ∧ (start :: steps).IsChain (Enters t e) ∧
    (start :: steps).getLast? = some folder ∧
    (∀ q ∈ (start :: steps).dropLast, ∀ other, ¬IsRoot t e other q) ∧ IsRoot t e d folder

theorem IsRoot.folder {t : FileTree} {e : Exclusion} {d : Dialect} {p : Path}
    (h : IsRoot t e d p) : t.isFolder p = true := by
  cases h with
  | aura hfolder => exact hfolder
  | lwc hfolder => exact hfolder

/-- No folder is a root of both dialects. -/
theorem IsRoot.dialect_unique {t : FileTree} {e : Exclusion} {d other : Dialect} {p : Path}
    (h : IsRoot t e d p) (hother : IsRoot t e other p) : d = other := by
  cases h with
  | aura _ hhouses =>
      cases hother with
      | aura => rfl
      | lwc _ hnot => exact absurd hhouses hnot
  | lwc _ hnot =>
      cases hother with
      | aura _ hhouses => exact absurd hhouses hnot
      | lwc => rfl

section Steps

variable {t : FileTree} {e : Exclusion}

theorem Enters.isFolder {outer inner : Path} (h : Enters t e outer inner) :
    t.isFolder outer = true := by
  obtain ⟨name, hname, -, hinner, -⟩ := h
  exact FileTree.isFolder_of_join hname (FileTree.isFolder_iff.mp hinner)

theorem isFolder_of_subfolders {folder : Path} {inner : List Path}
    (h : subfolders t e folder = .ok inner) : t.isFolder folder = true := by
  by_contra hnot
  obtain ⟨cause, herror⟩ := subfolders_of_not_folder e (Bool.eq_false_iff.mpr hnot)
  rw [herror] at h
  cases h

theorem not_folder_of_error {folder : Path} {cause : FileError}
    (h : subfolders t e folder = .error cause) : ¬t.isFolder folder = true := by
  intro hfolder
  obtain ⟨place, hplace, hget⟩ :=
    FileTree.entry?_folder_iff.mp (FileTree.isFolder_iff.mp hfolder)
  rw [subfolders, FileTree.children_eq_ok.mpr ⟨place, hplace, hget, rfl⟩] at h
  cases h

/-- The search looks into the folders that a step enters. -/
theorem mem_subfolders_iff (ht : t.WellNamed) {folder : Path} {inner : List Path}
    (h : subfolders t e folder = .ok inner) {q : Path} :
    q ∈ inner ↔ Enters t e folder q := by
  constructor
  · intro hq
    obtain ⟨name, hname, hincluded, hfolder, rfl⟩ := Candidate.mem_subfolders ht h hq
    exact ⟨name, hname, Bool.eq_false_iff.mpr hincluded, hfolder, rfl⟩
  · rintro ⟨name, hname, hincluded, hinner, rfl⟩
    obtain ⟨here, hhere, hroot, hget⟩ :=
      FileTree.entry?_join_reach hname (FileTree.isFolder_iff.mp hinner)
    obtain ⟨others, hothers, hmem⟩ := Candidate.subfolder_of_place hname
      (Bool.eq_false_iff.mp hincluded) hhere hroot hget
    rw [h] at hothers
    cases hothers
    exact hmem

theorem any_holdsComponent_iff (ht : t.WellNamed) {folder : Path} {inner : List Path}
    (h : subfolders t e folder = .ok inner) (d : Dialect) :
    inner.any (holdsComponent t d.entryExtensions) = true ↔ Houses t e d folder := by
  have hholds : ∀ name, PlainName name →
      (holdsComponent t d.entryExtensions (folder.join name) = true ↔
        ∃ ext ∈ d.entryExtensions, t.isFile (folder.entryOf name ext) = true) := by
    intro name hname
    rw [holdsComponent, Path.fileName?_of_components (Path.components_join hname)]
    simp only [Option.any_some, List.any_eq_true]
    rfl
  rw [List.any_eq_true]
  constructor
  · rintro ⟨q, hq, hcomponent⟩
    obtain ⟨name, hname, hincluded, hfolder, rfl⟩ := (mem_subfolders_iff ht h).mp hq
    exact ⟨name, hname, hincluded, hfolder, (hholds name hname).mp hcomponent⟩
  · rintro ⟨name, hname, hincluded, hfolder, hfile⟩
    exact ⟨folder.join name, (mem_subfolders_iff ht h).mpr ⟨name, hname, hincluded, hfolder, rfl⟩,
      (hholds name hname).mpr hfile⟩

theorem rootDialect?_eq_some_iff (ht : t.WellNamed) {folder : Path} {inner : List Path}
    (h : subfolders t e folder = .ok inner) {d : Dialect} :
    rootDialect? t folder inner = some d ↔ IsRoot t e d folder := by
  have hfolder := isFolder_of_subfolders h
  have haura : isRootOf t .aura folder inner = true ↔ Houses t e .aura folder := by
    rw [isRootOf, ← any_holdsComponent_iff ht h]
    simp
  have hlwc : isRootOf t .lwc folder inner = true ↔
      folder.fileName? = some "lwc" ∨ Houses t e .lwc folder := by
    rw [isRootOf, ← any_holdsComponent_iff ht h]
    simp [Dialect.word]
  rw [rootDialect?]
  by_cases hhouses : Houses t e .aura folder
  · rw [if_pos (haura.mpr hhouses), Option.some.injEq]
    constructor
    · rintro rfl
      exact .aura hfolder hhouses
    · intro hroot
      exact (IsRoot.aura hfolder hhouses).dialect_unique hroot
  rw [if_neg (mt haura.mp hhouses)]
  by_cases hnamed : folder.fileName? = some "lwc" ∨ Houses t e .lwc folder
  · rw [if_pos (hlwc.mpr hnamed), Option.some.injEq]
    constructor
    · rintro rfl
      exact .lwc hfolder hhouses hnamed
    · intro hroot
      exact (IsRoot.lwc hfolder hhouses hnamed).dialect_unique hroot
  · rw [if_neg (mt hlwc.mp hnamed)]
    refine ⟨fun hnone => (by cases hnone), fun hroot => ?_⟩
    cases hroot with
    | aura _ hyes => exact absurd hyes hhouses
    | lwc _ _ hyes => exact absurd hyes hnamed

end Steps

section Search

variable {t : FileTree} {e : Exclusion} {depth : Nat} {start p : Path} {d : Dialect}

theorem Leads.of_isRoot (h : IsRoot t e d p) : Leads t e depth p d p :=
  ⟨[], Nat.zero_le _, .singleton p, rfl, nofun, h⟩

/-- A root is where its chain ends. -/
theorem Leads.eq_of_isRoot (h : Leads t e depth start d p) {other : Dialect}
    (hstart : IsRoot t e other start) : p = start ∧ d = other := by
  obtain ⟨steps, -, -, hlast, hfront, hroot⟩ := h
  cases steps with
  | nil =>
      obtain rfl := Option.some.inj hlast
      exact ⟨rfl, hroot.dialect_unique hstart⟩
  | cons q rest => exact absurd hstart (hfront start List.mem_cons_self other)

theorem not_leads_zero (hstart : ∀ other, ¬IsRoot t e other start) :
    ¬Leads t e 0 start d p := by
  rintro ⟨steps, hlength, -, hlast, -, hroot⟩
  obtain rfl := List.eq_nil_of_length_eq_zero (Nat.le_zero.mp hlength)
  obtain rfl := Option.some.inj hlast
  exact hstart d hroot

/-- Elsewhere a chain goes on into a folder, with one step less to go. -/
theorem leads_succ_iff (hstart : ∀ other, ¬IsRoot t e other start) :
    Leads t e (depth + 1) start d p ↔ ∃ q, Enters t e start q ∧ Leads t e depth q d p := by
  constructor
  · rintro ⟨steps, hlength, hchain, hlast, hfront, hroot⟩
    cases steps with
    | nil =>
        obtain rfl := Option.some.inj hlast
        exact absurd hroot (hstart d)
    | cons q rest =>
        obtain ⟨henters, hrest⟩ := List.isChain_cons_cons.mp hchain
        refine ⟨q, henters, rest, Nat.le_of_succ_le_succ hlength, hrest, ?_, ?_, hroot⟩
        · rwa [List.getLast?_cons_cons] at hlast
        · exact fun r hr => hfront r (List.mem_cons_of_mem _ hr)
  · rintro ⟨q, henters, rest, hlength, hchain, hlast, hfront, hroot⟩
    refine ⟨q :: rest, Nat.succ_le_succ hlength, List.isChain_cons_cons.mpr ⟨henters, hchain⟩,
      ?_, ?_, hroot⟩
    · rwa [List.getLast?_cons_cons]
    · rw [List.dropLast_cons_cons]
      exact List.forall_mem_cons.mpr ⟨hstart, hfront⟩

theorem Leads.isFolder (h : Leads t e depth start d p) : t.isFolder start = true := by
  obtain ⟨steps, -, hchain, hlast, -, hroot⟩ := h
  cases steps with
  | nil =>
      obtain rfl := Option.some.inj hlast
      exact hroot.folder
  | cons q rest => exact (List.isChain_cons_cons.mp hchain).1.isFolder

/-- The search finds exactly what a chain leads to. -/
theorem mem_search_iff (ht : t.WellNamed) :
    (d, p) ∈ search t e depth start ↔ Leads t e depth start d p := by
  induction depth using Nat.strongRecOn generalizing start with
  | _ depth ih =>
      rw [search]
      cases hinner : subfolders t e start with
      | error cause =>
          exact ⟨fun hmem => absurd hmem List.not_mem_nil,
            fun hleads => absurd hleads.isFolder (not_folder_of_error hinner)⟩
      | ok inner =>
          dsimp only
          cases hdialect : rootDialect? t start inner with
          | some found =>
              have hstart := (rootDialect?_eq_some_iff ht hinner).mp hdialect
              dsimp only
              constructor
              · intro hmem
                cases List.mem_singleton.mp hmem
                exact .of_isRoot hstart
              · intro hleads
                obtain ⟨rfl, rfl⟩ := hleads.eq_of_isRoot hstart
                exact List.mem_singleton_self _
          | none =>
              have hstart : ∀ other, ¬IsRoot t e other start := by
                intro other hroot
                rw [(rootDialect?_eq_some_iff ht hinner).mpr hroot] at hdialect
                cases hdialect
              cases depth with
              | zero =>
                  exact ⟨fun hmem => absurd hmem List.not_mem_nil,
                    fun hleads => absurd hleads (not_leads_zero hstart)⟩
              | succ depth =>
                  dsimp only
                  rw [List.mem_flatMap, leads_succ_iff hstart]
                  refine exists_congr fun q => ?_
                  rw [mem_subfolders_iff ht hinner, ih depth depth.lt_succ_self]

/-- The subfolders of a folder stand in the order of their names. -/
theorem subfolders_pairwise (ht : t.WellNamed) (hdistinct : t.Distinct) {folder : Path}
    {inner : List Path} (h : subfolders t e folder = .ok inner) :
    inner.Pairwise fun q r => ∃ a b, a < b ∧ q.components = folder.components ++ [.name a] ∧
      r.components = folder.components ++ [.name b] := by
  have hsome : (subfolders t e folder).toOption = some inner := by
    rw [h]
    rfl
  obtain ⟨here, -, -, rfl⟩ := Candidate.subfolders_eq_some.mp hsome
  refine List.Pairwise.filter _ (List.pairwise_map.mpr ?_)
  refine (hdistinct.namesAt here).imp_of_mem fun {a b} ha hb hlt => ?_
  exact ⟨a, b, hlt, Path.components_join (ht.plain ha), Path.components_join (ht.plain hb)⟩

/-- What is found parts in the order in which it is found. -/
theorem search_pairwise (ht : t.WellNamed) (hdistinct : t.Distinct) :
    (search t e depth start).Pairwise fun f g => f.2.Parts g.2 := by
  induction depth using Nat.strongRecOn generalizing start with
  | _ depth ih =>
      rw [search]
      cases hinner : subfolders t e start with
      | error cause => exact .nil
      | ok inner =>
          dsimp only
          cases rootDialect? t start inner with
          | some found => exact List.pairwise_singleton _ _
          | none =>
              cases depth with
              | zero => exact .nil
              | succ depth =>
                  dsimp only
                  refine List.pairwise_flatMap.mpr ⟨fun q _ => ih depth depth.lt_succ_self, ?_⟩
                  refine (subfolders_pairwise ht hdistinct hinner).imp ?_
                  rintro q r ⟨a, b, hlt, hq, hr⟩ f hf g hg
                  obtain ⟨back, hback, -⟩ := below_of_search ht hf
                  obtain ⟨back', hback', -⟩ := below_of_search ht hg
                  refine ⟨start.components, a, b, back, back', ?_, ?_, hlt⟩
                  · rw [hback, hq, List.append_assoc]
                    rfl
                  · rw [hback', hr, List.append_assoc]
                    rfl

/-- What holds between findings holds between the roots of a dialect in the same order. -/
theorem forDialect_pairwise {R : Path → Path → Prop} {found : List (Dialect × Path)}
    (h : found.Pairwise fun f g => R f.2 g.2) (d : Dialect) :
    ((ofFound found).forDialect d).Pairwise R := by
  rw [forDialect_ofFound, List.pairwise_filterMap]
  refine h.imp fun {f g} hfg p hp q hq => ?_
  cases (Option.ite_none_right_eq_some.mp hp).2
  cases (Option.ite_none_right_eq_some.mp hq).2
  exact hfg

/-- Findings that are apart give roots that are apart, also across the dialects. -/
theorem ofFound_apart {found : List (Dialect × Path)}
    (h : found.Pairwise fun f g => f.2.Apart g.2) :
    ((ofFound found).lwc ++ (ofFound found).aura).Pairwise Path.Apart := by
  refine List.pairwise_append.mpr
    ⟨forDialect_pairwise h .lwc, forDialect_pairwise h .aura, fun p hp q hq => ?_⟩
  have hlwc : (Dialect.lwc, p) ∈ found := (mem_ofFound (d := .lwc)).mp hp
  have haura : (Dialect.aura, q) ∈ found := (mem_ofFound (d := .aura)).mp hq
  have hsymm : Std.Symm fun f g : Dialect × Path => f.2.Apart g.2 := ⟨fun _ _ hfg => hfg.symm⟩
  exact h.forall hlwc haura (by simp)

/-- The search finds exactly the folders to which a chain of folders leads, within its depth and
past no other root; each of them once, in the one dialect of which it is a root, in the order of
siblings at which they part, and none in another. -/
theorem search_exact (ht : t.WellNamed) (hdistinct : t.Distinct) (e : Exclusion) (depth : Nat)
    (start : Path) :
    let r := ofFound (search t e depth start)
    (∀ d p, p ∈ r.forDialect d ↔ Leads t e depth start d p) ∧
    (∀ d, (r.forDialect d).Pairwise fun p q => p.Parts q ∧ p.before q = true) ∧
    (r.lwc ++ r.aura).Pairwise Path.Apart := by
  have hparts : (search t e depth start).Pairwise fun f g => f.2.Parts g.2 :=
    search_pairwise ht hdistinct
  refine ⟨fun d p => mem_ofFound.trans (mem_search_iff ht), fun d => ?_, ?_⟩
  · exact forDialect_pairwise (hparts.imp fun h => ⟨h, h.before⟩) d
  · exact ofFound_apart (hparts.imp Path.Parts.apart)

/-- Two steps lead to a folder of the reserved name, and one step does not; behind an excluded name
nothing is found. -/
theorem search_exact_sample :
    let t := FileTree.empty.plant ⟨"/w/app/lwc/card/card.js"⟩ (.file none 1)
    let t' := FileTree.empty.plant ⟨"/w/bin/pages/a/a.cmp"⟩ (.file none 1)
    (t.WellNamed ∧ t.Distinct ∧ Leads t .standard 2 ⟨"/w"⟩ .lwc ⟨"/w/app/lwc"⟩ ∧
      ¬Leads t .standard 1 ⟨"/w"⟩ .lwc ⟨"/w/app/lwc"⟩) ∧
    t'.WellNamed ∧ t'.Distinct ∧ Leads t' .standard 0 ⟨"/w/bin/pages"⟩ .aura ⟨"/w/bin/pages"⟩ ∧
      ¬Leads t' .standard 9 ⟨"/w"⟩ .aura ⟨"/w/bin/pages"⟩ := by
  intro t t'
  have hnamed : t.WellNamed ∧ t'.WellNamed := by decide +kernel
  have hdistinct : t.Distinct := FileTree.Distinct.empty.plant _ _
  have hdistinct' : t'.Distinct := FileTree.Distinct.empty.plant _ _
  have hexact := fun depth => (search_exact hnamed.1 hdistinct .standard depth ⟨"/w"⟩).1
  have hexact' := fun depth start => (search_exact hnamed.2 hdistinct' .standard depth start).1
  refine ⟨⟨hnamed.1, hdistinct, ?_, ?_⟩, hnamed.2, hdistinct', ?_, ?_⟩
  · exact (hexact 2 .lwc _).mp (by decide +kernel)
  · exact mt (hexact 1 .lwc _).mpr (by decide +kernel)
  · exact (hexact' 0 _ .aura _).mp (by decide +kernel)
  · exact mt (hexact' 9 _ .aura _).mpr (by decide +kernel)

end Search

end NamespaceRoots

end ComponentAtlas
