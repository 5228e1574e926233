import ComponentAtlas.Proofs.Indexing.Refound

/-!
# Which candidates are relevant

A search starts at some folders below the roots of a workspace and leaves out the excluded folders
that it meets. A change counts when no name below the first root around it is excluded. So the
changes of a candidate count unless its file or a folder in front of the start of the search is
excluded by its name.
-/

namespace ComponentAtlas

open ComponentAtlas.Text

namespace Path

/-- More pieces are more components. -/
theorem ofPieces_append {front : List (List Char)} (hne : front ≠ []) (hempty : front ≠ [[]])
    (back : List (List Char)) :
    ofPieces (front ++ back) = ofPieces front ++ back.filterMap Step.ofPiece? := by
  induction back generalizing front with
  | nil => rw [List.append_nil, List.filterMap_nil, List.append_nil]
  | cons piece rest ih =>
      have hnext : front ++ [piece] ≠ [[]] := by
        intro hnext
        have hlength := congrArg List.length hnext
        have hfront := List.length_pos_iff.mpr hne
        simp only [List.length_append, List.length_singleton] at hlength
        omega
      rw [List.append_cons, ih (List.append_ne_nil_of_left_ne_nil hne _) hnext,
        ofPieces_concat hne hempty, List.append_assoc]
      cases hpiece : Step.ofPiece? piece with
      | none => rw [List.filterMap_cons_none hpiece, Option.toList_none, List.nil_append]
      | some step => rw [List.filterMap_cons_some hpiece, Option.toList_some, List.singleton_append]

/-- A path that does not start at the root leads further from where it is joined. -/
theorem prefix_components_join {p : Path} {inner : String}
    (h : inner.toList.head? ≠ some '/') : p.components <+: (p.join inner).components := by
  by_cases hempty : p.text.toList = []
  · have hnone : p.components = [] := by
      rw [components_eq_ofPieces, hempty]
      rfl
    rw [hnone]
    exact List.nil_prefix
  by_cases hslash : p.text.toList.getLast? = some '/'
  · obtain ⟨front, hfront⟩ := List.getLast?_eq_some_iff.mp hslash
    have htext : (p.join inner).text.toList = front ++ '/' :: inner.toList := by
      rw [join, if_neg h, if_pos (.inr hslash), String.toList_append, hfront, List.append_assoc]
      rfl
    rw [components_eq_ofPieces, components_eq_ofPieces, htext, hfront, splitAt_append,
      splitAt_append]
    by_cases hroot : splitAt '/' front = [[]]
    · rw [hroot]
      have hpieces := splitAt_ne_nil '/' inner.toList
      simp [ofPieces, hpieces, splitAt, Step.ofPiece?]
    · rw [ofPieces_append (splitAt_ne_nil _ _) hroot, ofPieces_append (splitAt_ne_nil _ _) hroot]
      simp [splitAt, Step.ofPiece?]
  · have htext : (p.join inner).text.toList = p.text.toList ++ '/' :: inner.toList := by
      have hend : ¬(p.text.isEmpty = true ∨ p.text.toList.getLast? = some '/') := by
        rw [String.isEmpty_iff, ← String.toList_eq_nil_iff]
        exact not_or.mpr ⟨hempty, hslash⟩
      rw [join, if_neg h, if_neg hend]
      simp
    rw [components_eq_ofPieces, components_eq_ofPieces, htext, splitAt_append,
      ofPieces_append (splitAt_ne_nil _ _) fun hnil => hempty (splitAt_eq_singleton_nil hnil)]
    exact List.prefix_append _ _

theorem below?_eq_some {p base : Path} {steps : List Step} :
    p.below? base = some steps ↔ p.components = base.components ++ steps := by
  have hgo : ∀ front whole : List Step,
      below?.go front whole = some steps ↔ whole = front ++ steps := by
    intro front
    induction front with
    | nil => exact fun whole => by simp [below?.go]
    | cons b front ih =>
        intro whole
        cases whole with
        | nil => simp [below?.go]
        | cons c rest =>
            rw [below?.go, List.cons_append, List.cons.injEq]
            by_cases hbc : b = c
            · rw [if_pos hbc, ih]
              simp [hbc]
            · simp [hbc, Ne.symm hbc]
  exact hgo base.components p.components

end Path

namespace Exclusion

variable {e : Exclusion}

theorem excludesStep_append (front back : List Step) :
    e.excludesStep (front ++ back) = (e.excludesStep front || e.excludesStep back) :=
  List.any_append

/-- Behind names that are not excluded only the last name counts. -/
theorem excludesStep_names {inner : List String} {file : String}
    (h : ∀ name ∈ inner, e.matchesName name = false) :
    e.excludesStep ((inner ++ [file]).map .name) = e.matchesName file := by
  rw [List.map_append, excludesStep_append]
  have hinner : e.excludesStep (inner.map .name) = false := by
    rw [excludesStep, List.any_eq_false]
    intro step hstep
    obtain ⟨name, hname, rfl⟩ := List.mem_map.mp hstep
    exact Bool.eq_false_iff.mp (h name hname)
  rw [hinner, Bool.false_or]
  simp [excludesStep]

/-- The end of a path whose inner names are not excluded. Only what stands in front of these names
and the last name count. -/
theorem excludesStep_end {front start steps : List Step} {inner : List String} {file : String}
    (hinner : ∀ name ∈ inner, e.matchesName name = false)
    (hsplit : front ++ steps = start ++ (inner ++ [file]).map .name) :
    e.excludesStep steps = false ↔
      e.excludesStep (steps.take (steps.length - (inner.length + 1))) = false ∧
        (steps ≠ [] → e.matchesName file = false) := by
  rcases List.append_eq_append_iff.mp hsplit with ⟨outer, -, rfl⟩ | ⟨outer, -, hbehind⟩
  · -- The end begins in front of the inner names.
    have houter : (outer ++ (inner ++ [file]).map Step.name).take
        ((outer ++ (inner ++ [file]).map Step.name).length - (inner.length + 1)) = outer := by
      simp
    rw [houter, excludesStep_append, e.excludesStep_names hinner, Bool.or_eq_false_iff]
    exact and_congr_right fun _ => ⟨fun h _ => h, fun h => h (by simp)⟩
  · -- The end begins among them, and only names count.
    obtain ⟨names, back, hback, rfl, rfl⟩ := List.map_eq_append_iff.mp hbehind
    have hlength := congrArg List.length hback
    rw [List.length_append, List.length_append, List.length_singleton] at hlength
    have hnone : (back.map Step.name).length - (inner.length + 1) = 0 := by
      rw [List.length_map]
      omega
    rw [hnone, List.take_zero]
    rcases List.eq_nil_or_concat' back with rfl | ⟨others, last, rfl⟩
    · exact ⟨fun _ => ⟨rfl, fun h => absurd rfl h⟩, fun _ => rfl⟩
    · rw [← List.append_assoc] at hback
      obtain ⟨hothers, hlast⟩ := List.append_inj' hback rfl
      obtain rfl : file = last := List.head_eq_of_cons_eq hlast
      have hkept : ∀ name ∈ others, e.matchesName name = false := by
        intro name hname
        refine hinner name ?_
        rw [hothers]
        exact List.mem_append_right _ hname
      rw [e.excludesStep_names hkept]
      exact ⟨fun h => ⟨rfl, fun _ => h⟩, fun h => h.2 (by simp)⟩

end Exclusion

namespace NamespaceRoots

theorem mem_ofFound {found : List (Dialect × Path)} {d : Dialect} {g : Path} :
    g ∈ (ofFound found).forDialect d ↔ (d, g) ∈ found := by
  rw [forDialect_ofFound, List.mem_filterMap]
  constructor
  · rintro ⟨⟨e, p⟩, hmem, hsome⟩
    by_cases he : e = d
    · rw [if_pos he] at hsome
      cases hsome
      rw [← he]
      exact hmem
    · rw [if_neg he] at hsome
      cases hsome
  · exact fun hmem => ⟨(d, g), hmem, if_pos rfl⟩

theorem bind_eq_ok {α β : Type} {x : Except ConfigError α} {f : α → Except ConfigError β} {b : β}
    (h : (x >>= f) = .ok b) : ∃ a, x = .ok a ∧ f a = .ok b := by
  cases x with
  | error cause => cases h
  | ok a => exact ⟨a, rfl, h⟩

/-- What is found for some paths is found for one of them. -/
theorem mem_of_mapM {f : Path → Except ConfigError (List (Dialect × Path))} {paths : List Path}
    {found : List (List (Dialect × Path))} (h : paths.mapM f = .ok found) {x : Dialect × Path}
    (hx : x ∈ found.flatten) : ∃ p ∈ paths, ∃ list, f p = .ok list ∧ x ∈ list := by
  induction paths generalizing found with
  | nil =>
      cases h
      cases hx
  | cons p rest ih =>
      rw [List.mapM_cons] at h
      obtain ⟨list, hlist, hrest⟩ := bind_eq_ok h
      obtain ⟨more, hmore, hfound⟩ := bind_eq_ok hrest
      cases hfound
      rcases List.mem_append.mp hx with hhead | htail
      · exact ⟨p, List.mem_cons_self, list, hlist, hhead⟩
      · obtain ⟨q, hq, hx⟩ := ih hmore htail
        exact ⟨q, List.mem_cons_of_mem _ hq, hx⟩

/-- A root lies behind names that are not excluded. -/
theorem below_of_search {t : FileTree} (ht : t.WellNamed) {e : Exclusion} {d : Dialect} {g : Path}
    {depth : Nat} {start : Path} (h : (d, g) ∈ search t e depth start) :
    ∃ inner : List String, g.components = start.components ++ inner.map .name ∧
      ∀ name ∈ inner, e.matchesName name = false := by
  induction depth using Nat.strongRecOn generalizing start with
  | _ depth ih =>
      rw [search] at h
      split at h
      · cases h
      · next folders hfolders =>
          split at h
          · cases List.mem_singleton.mp h
            exact ⟨[], by simp, List.forall_mem_nil _⟩
          · cases depth with
            | zero => cases h
            | succ depth =>
                obtain ⟨folder, hfolder, hmem⟩ := List.mem_flatMap.mp h
                obtain ⟨name, hname, hincluded, -, rfl⟩ :=
                  Candidate.mem_subfolders ht hfolders hfolder
                obtain ⟨inner, hinner, hnames⟩ := ih depth depth.lt_succ_self hmem
                refine ⟨name :: inner, ?_, List.forall_mem_cons.mpr
                  ⟨Bool.eq_false_iff.mpr hincluded, hnames⟩⟩
                rw [hinner, Path.components_join hname, List.append_assoc]
                rfl

end NamespaceRoots

namespace Workspace

/-- Where the search for namespace roots starts, for a root of the workspace. -/
def starts (w : Workspace) (t : FileTree) (root : Path) : List Path :=
  match w.kind with
  | .packageSet => ((Manifest.ofFolder t root).toOption.map fun m => m.folders root).getD []
  | .largeAll =>
      ((NamespaceRoots.subfolders t w.exclusion root).toOption.getD []).map fun project =>
        project.join NamespaceRoots.modulesName
  | .largePartial => [root.join NamespaceRoots.modulesName]
  | .monorepo | .single | .singleWithFramework | .unknown => [root]

/-- A workspace whose manifests name packages by relative paths. -/
def RelativePackages (w : Workspace) (t : FileTree) : Prop :=
  ∀ root ∈ w.roots, ∀ m, Manifest.ofFolder t root = .ok m →
    ∀ package ∈ m.packages, package.toList.head? ≠ some '/'

variable {w : Workspace} {t : FileTree}

/-- The search starts at or below a root. -/
theorem prefix_of_starts (ht : t.WellNamed) (hpackages : w.RelativePackages t) {root start : Path}
    (hroot : root ∈ w.roots) (hstart : start ∈ w.starts t root) :
    root.components <+: start.components := by
  have hmodules : ∀ p : Path, p.components <+: (p.join NamespaceRoots.modulesName).components :=
    fun p => Path.prefix_components_join (by decide)
  unfold starts at hstart
  cases hkind : w.kind with
  | packageSet =>
      rw [hkind] at hstart
      cases hm : Manifest.ofFolder t root with
      | error cause =>
          rw [hm] at hstart
          cases hstart
      | ok m =>
          rw [hm] at hstart
          obtain ⟨package, hpackage, rfl⟩ := List.mem_map.mp hstart
          exact Path.prefix_components_join (hpackages root hroot m hm package hpackage)
  | largeAll =>
      rw [hkind] at hstart
      obtain ⟨project, hproject, rfl⟩ := List.mem_map.mp hstart
      cases hinner : NamespaceRoots.subfolders t w.exclusion root with
      | error cause =>
          rw [hinner] at hproject
          cases hproject
      | ok inner =>
          rw [hinner] at hproject
          obtain ⟨name, hname, -, -, rfl⟩ := Candidate.mem_subfolders ht hinner hproject
          refine List.IsPrefix.trans ?_ (hmodules _)
          rw [Path.components_join hname]
          exact List.prefix_append _ _
  | largePartial =>
      rw [hkind] at hstart
      obtain rfl := List.mem_singleton.mp hstart
      exact hmodules root
  | monorepo | single | singleWithFramework | unknown =>
      rw [hkind] at hstart
      obtain rfl := List.mem_singleton.mp hstart
      exact List.prefix_rfl

/-- Each namespace root is found by the search from one of its starts. -/
theorem search_of_root {r : NamespaceRoots} (hfound : w.searchRoots t = .ok r) {d : Dialect}
    {g : Path} (hg : g ∈ r.forDialect d) :
    ∃ root ∈ w.roots, ∃ start ∈ w.starts t root, ∃ depth,
      (d, g) ∈ NamespaceRoots.search t w.exclusion depth start := by
  have hflat : ∀ {found : Path → List (Dialect × Path)},
      r = .ofFound (w.roots.flatMap found) → ∃ root ∈ w.roots, (d, g) ∈ found root := by
    rintro found rfl
    exact List.mem_flatMap.mp (NamespaceRoots.mem_ofFound.mp hg)
  unfold searchRoots NamespaceRoots.find at hfound
  unfold starts
  cases hkind : w.kind with
  | packageSet =>
      rw [hkind] at hfound
      obtain ⟨found, hall, hr⟩ := NamespaceRoots.bind_eq_ok hfound
      cases hr
      obtain ⟨root, hroot, list, hlist, hmem⟩ :=
        NamespaceRoots.mem_of_mapM hall (NamespaceRoots.mem_ofFound.mp hg)
      obtain ⟨m, hm, hfolders⟩ := NamespaceRoots.bind_eq_ok hlist
      cases hfolders
      obtain ⟨start, hstart, hsearch⟩ := List.mem_flatMap.mp hmem
      exact ⟨root, hroot, start, by rw [hm]; exact hstart, 5, hsearch⟩
  | largeAll =>
      rw [hkind] at hfound
      obtain ⟨root, hroot, hmem⟩ := hflat (Except.ok.inj hfound).symm
      unfold NamespaceRoots.searchProjects at hmem
      split at hmem
      · cases hmem
      · next projects hprojects =>
          obtain ⟨project, hproject, hsearch⟩ := List.mem_flatMap.mp hmem
          rw [NamespaceRoots.searchModules_eq_search] at hsearch
          refine ⟨root, hroot, _, ?_, 2, hsearch⟩
          rw [hprojects]
          exact List.mem_map_of_mem hproject
  | largePartial =>
      rw [hkind] at hfound
      obtain ⟨root, hroot, hsearch⟩ := hflat (Except.ok.inj hfound).symm
      rw [NamespaceRoots.searchModules_eq_search] at hsearch
      exact ⟨root, hroot, _, List.mem_singleton_self _, 2, hsearch⟩
  | monorepo | single | singleWithFramework | unknown =>
      rw [hkind] at hfound
      obtain ⟨root, hroot, hsearch⟩ := hflat (Except.ok.inj hfound).symm
      exact ⟨root, hroot, root, List.mem_singleton_self _, _, hsearch⟩

end Workspace

namespace Candidate

variable {w : Workspace} {t : FileTree} {d : Dialect} {r : NamespaceRoots} {c : Candidate}

/-- A candidate lies below a start of the search, behind names that are not excluded. -/
theorem below_of_mem_discover (ht : t.WellNamed) (hfound : w.searchRoots t = .ok r)
    (hc : c ∈ discover t w d r) :
    ∃ root ∈ w.roots, ∃ start ∈ w.starts t root, ∃ (inner : List String) (file : String),
      c.path.components = start.components ++ (inner ++ [file]).map .name ∧
        ∀ name ∈ inner, w.exclusion.matchesName name = false := by
  obtain ⟨g, hg, name, ext, hstands⟩ := stands_of_mem_discover ht hc
  obtain ⟨root, hroot, start, hstart, depth, hsearch⟩ := w.search_of_root hfound hg
  obtain ⟨inner, hinner, hnames⟩ := NamespaceRoots.below_of_search ht hsearch
  refine ⟨root, hroot, start, hstart, inner ++ [name], name ++ "." ++ ext, ?_, ?_⟩
  · rw [hstands.components, hinner]
    simp
  · intro other hother
    rcases List.mem_append.mp hother with hold | hlast
    · exact hnames other hold
    · obtain rfl := List.mem_singleton.mp hlast
      exact Bool.eq_false_iff.mpr hstands.included

/-- A candidate below the roots that a search finds is relevant when neither its file nor a name
between the first root around it and the start of the search is excluded. The names in between
need no test: the search has left out those that are excluded. -/
theorem isRelevant_iff (ht : t.WellNamed) (hpackages : w.RelativePackages t)
    (hfound : w.searchRoots t = .ok r) (hc : c ∈ discover t w d r) :
    ∃ root ∈ w.roots, ∃ start ∈ w.starts t root,
      ∃ (inner : List String) (file : String) (steps : List Step),
        c.path.components = start.components ++ (inner ++ [file]).map .name ∧
        (∀ name ∈ inner, w.exclusion.matchesName name = false) ∧
        w.roots.findSome? c.path.below? = some steps ∧
        (w.isRelevant c.path = true ↔
          w.exclusion.excludesStep (steps.take (steps.length - (inner.length + 1))) = false ∧
            (steps ≠ [] → w.exclusion.matchesName file = false)) := by
  obtain ⟨root, hroot, start, hstart, inner, file, hpath, hinner⟩ :=
    below_of_mem_discover ht hfound hc
  obtain ⟨steps, hsteps⟩ : ∃ steps, w.roots.findSome? c.path.below? = some steps := by
    rw [← Option.isSome_iff_exists, List.findSome?_isSome_iff]
    refine ⟨root, hroot, Path.startsWith_iff.mpr ?_⟩
    rw [hpath]
    exact (w.prefix_of_starts ht hpackages hroot hstart).trans (List.prefix_append _ _)
  refine ⟨root, hroot, start, hstart, inner, file, steps, hpath, hinner, hsteps, ?_⟩
  obtain ⟨first, -, hfirst⟩ := List.exists_of_findSome?_eq_some hsteps
  have hsplit := (Path.below?_eq_some.mp hfirst).symm.trans hpath
  rw [Workspace.isRelevant, hsteps, Bool.not_eq_true']
  exact w.exclusion.excludesStep_end hinner hsplit

namespace Sample

/-- A web component. -/
def files : FileTree :=
  FileTree.empty.plant ⟨"/w/lwc/card/card.js"⟩ (.file (some "") 5)

/-- A workspace in which names that end like scripts are excluded. -/
def workspace : Workspace :=
  ⟨[⟨"/w"⟩], .unknown, .standard, ((Exclusion.read ["*.js"]).toOption.getD ⟨[]⟩), none⟩

/-- The web component as a candidate. -/
def card : Candidate :=
  ⟨⟨"/w/lwc/card/card.js"⟩, "c", 5⟩

theorem card_found : files.WellNamed ∧ workspace.searchRoots files = .ok ⟨[⟨"/w/lwc"⟩], []⟩ ∧
    card ∈ discover files workspace .lwc ⟨[⟨"/w/lwc"⟩], []⟩ ∧
      card.path.components.getLast? = some (.name "card.js") ∧
        workspace.roots.findSome? card.path.below? =
            some [.name "lwc", .name "card", .name "card.js"] ∧
          workspace.exclusion.matchesName "card.js" = true := by
  decide +kernel

end Sample

/-- A component is indexed, and changes of its file do not count. -/
theorem isRelevant_excluded_file :
    Sample.card ∈ discover Sample.files Sample.workspace .lwc ⟨[⟨"/w/lwc"⟩], []⟩ ∧
      Sample.workspace.isRelevant Sample.card.path = false := by
  obtain ⟨hnamed, hfound, hmem, hlast, hbelow, hexcluded⟩ := Sample.card_found
  have hpackages : Sample.workspace.RelativePackages Sample.files := by
    intro root hroot m hm
    obtain rfl := List.mem_singleton.mp hroot
    have hmissing : (Manifest.ofFolder Sample.files ⟨"/w"⟩).toOption = none := by decide +kernel
    rw [hm] at hmissing
    cases hmissing
  obtain ⟨-, -, start, -, inner, file, steps, hpath, -, hsteps, hiff⟩ :=
    isRelevant_iff hnamed hpackages hfound hmem
  obtain rfl : file = "card.js" := by
    rw [hpath, List.map_append, ← List.append_assoc] at hlast
    simpa using hlast
  obtain rfl := Option.some.inj (hbelow.symm.trans hsteps)
  refine ⟨hmem, Bool.eq_false_iff.mpr fun hrelevant => ?_⟩
  have hnot := (hiff.mp hrelevant).2 (List.cons_ne_nil _ _)
  rw [hexcluded] at hnot
  cases hnot

end Candidate

end ComponentAtlas
