import ComponentAtlas.Proofs.Indexing.RootSearch
import Mathlib.Data.List.Flatten

/-!
# Roots of a whole workspace

The search starts in several folders, and each start is searched by itself. Starts that are apart
give roots that are apart, and these give each candidate once. Nothing compares what different
starts give: from two starts one of which lies in the other, a root is found twice.
-/

namespace ComponentAtlas

namespace Path

/-- Lists of what lies in folders that are apart make up a list of what is apart. -/
theorem pairwise_apart_flatMap {α : Type} (path : α → Path) {folders : List Path}
    {f : Path → List α} (h : folders.Pairwise Apart)
    (hinner : ∀ p ∈ folders, (f p).Pairwise fun x y => (path x).Apart (path y))
    (hbelow : ∀ p ∈ folders, ∀ x ∈ f p, p.place <+: (path x).place) :
    (folders.flatMap f).Pairwise fun x y => (path x).Apart (path y) := by
  refine List.pairwise_flatMap.mpr ⟨hinner, h.imp_of_mem fun hp hq hapart x hx y hy => ?_⟩
  exact hapart.inside (hbelow _ hp x hx) (hbelow _ hq y hy)

/-- Of things with different paths one alone has a given path. -/
theorem filter_same_eq {α : Type} (path : α → Path) {items : List α}
    (h : items.Pairwise fun x y => ¬(path x).same (path y) = true) {a : α} (ha : a ∈ items)
    {p : Path} (hsame : (path a).same p = true) :
    items.filter (fun x => (path x).same p) = [a] := by
  obtain ⟨before, after, rfl⟩ := List.append_of_mem ha
  obtain ⟨-, hafter, hbefore⟩ := List.pairwise_append.mp h
  have hsames : ∀ x : α, (path x).same p = true → (path x).same (path a) = true := by
    intro x hx
    rw [same_iff, same_iff.mp hx, same_iff.mp hsame]
  have hnone : before.filter (fun x => (path x).same p) = [] :=
    List.filter_eq_nil_iff.mpr fun x hx hequal =>
      hbefore x hx a List.mem_cons_self (hsames x hequal)
  have hrest : after.filter (fun x => (path x).same p) = [] :=
    List.filter_eq_nil_iff.mpr fun x hx hequal =>
      (List.pairwise_cons.mp hafter).1 x hx (by rw [same_comm]; exact hsames x hequal)
  simp only [List.filter_append, hnone, List.filter_cons, hsame, if_true, hrest, List.nil_append]

theorem place_prefix_join {p : Path} {name : String} (h : PlainName name) :
    p.place <+: (p.join name).place := by
  rw [place_join h]
  exact List.prefix_append _ _

theorem Apart.place_ne {p q : Path} (h : p.Apart q) : p.place ≠ q.place :=
  fun hsame => h.1 (hsame ▸ List.prefix_rfl)

end Path

namespace NamespaceRoots

variable {t : FileTree} {e : Exclusion}

theorem subfolders_apart (ht : t.WellNamed) (hdistinct : t.Distinct) {folder : Path}
    {inner : List Path} (h : subfolders t e folder = .ok inner) : inner.Pairwise Path.Apart := by
  refine (subfolders_pairwise ht hdistinct h).imp ?_
  rintro q r ⟨a, b, hlt, hq, hr⟩
  exact Path.Parts.apart ⟨folder.components, a, b, [], [], hq, hr, hlt⟩

theorem place_prefix_of_enters {outer inner : Path} (h : Enters t e outer inner) :
    outer.place <+: inner.place := by
  obtain ⟨name, hname, -, -, rfl⟩ := h
  exact Path.place_prefix_join hname

theorem place_prefix_of_search (ht : t.WellNamed) {depth : Nat} {start : Path}
    {f : Dialect × Path} (hf : f ∈ search t e depth start) : start.place <+: f.2.place := by
  obtain ⟨inner, hinner, -⟩ := below_of_search ht hf
  rw [Path.place_of_components hinner]
  exact List.prefix_append _ _

/-- Searches from starts that are apart find folders that are apart. -/
theorem searches_apart (ht : t.WellNamed) (hdistinct : t.Distinct) (e : Exclusion) (depth : Nat)
    {starts : List Path} (h : starts.Pairwise Path.Apart) :
    (starts.flatMap (search t e depth)).Pairwise fun f g => f.2.Apart g.2 :=
  Path.pairwise_apart_flatMap Prod.snd h
    (fun _ _ => (search_pairwise ht hdistinct).imp Path.Parts.apart)
    fun _ _ _ hf => place_prefix_of_search ht hf

/-- What two searches find is found twice. -/
theorem repeated_of_starts {depth : Nat} {starts : List Path} {start other : Path}
    (h : [start, other].Sublist starts) {d : Dialect} {p : Path}
    (hstart : (d, p) ∈ search t e depth start) (hother : (d, p) ∈ search t e depth other) :
    [p, p].Sublist ((ofFound (starts.flatMap (search t e depth))).forDialect d) := by
  have hboth := (List.singleton_sublist.mpr hstart).append (List.singleton_sublist.mpr hother)
  have hall := h.flatMap (search t e depth)
  rw [List.flatMap_cons, List.flatMap_singleton] at hall
  have hfound := hboth.trans hall
  rw [forDialect_ofFound]
  simpa using hfound.filterMap fun f => if f.1 = d then some f.2 else none

/-- What is found for some paths in turn, when the result for each path is known. -/
theorem flatten_of_mapM {f : Path → Except ConfigError (List (Dialect × Path))}
    {g : Path → List (Dialect × Path)} {paths : List Path}
    (hfound : ∀ p list, f p = .ok list → list = g p) {found : List (List (Dialect × Path))}
    (h : paths.mapM f = .ok found) : found.flatten = paths.flatMap g := by
  induction paths generalizing found with
  | nil =>
      cases h
      rfl
  | cons p rest ih =>
      rw [List.mapM_cons] at h
      obtain ⟨list, hlist, hrest⟩ := bind_eq_ok h
      obtain ⟨more, hmore, hall⟩ := bind_eq_ok hrest
      cases hall
      rw [List.flatten_cons, List.flatMap_cons, hfound p list hlist, ih hmore]

end NamespaceRoots

namespace Workspace

variable {w : Workspace} {t : FileTree}

/-- The folders that are given to be searched: the packages of a package set, or the roots. -/
def given (w : Workspace) (t : FileTree) : List Path :=
  match w.kind with
  | .packageSet => w.roots.flatMap (w.starts t)
  | _ => w.roots

/-- All folders from which a search starts, in their order. -/
def allStarts (w : Workspace) (t : FileTree) : List Path :=
  w.roots.flatMap (w.starts t)

/-- How many steps below its start a root may lie. -/
def depth (w : Workspace) : Nat :=
  match w.kind with
  | .packageSet => 5
  | .largeAll | .largePartial => 2
  | .monorepo => 8
  | .single | .singleWithFramework | .unknown => 6

/-- The namespace roots are those that the searches from all starts find in turn. -/
theorem searchRoots_eq {r : NamespaceRoots} (h : w.searchRoots t = .ok r) :
    r = .ofFound ((w.allStarts t).flatMap (NamespaceRoots.search t w.exclusion w.depth)) := by
  unfold searchRoots NamespaceRoots.find at h
  rw [allStarts, List.flatMap_assoc]
  unfold starts depth
  cases hkind : w.kind with
  | packageSet =>
      rw [hkind] at h
      obtain ⟨found, hall, hr⟩ := NamespaceRoots.bind_eq_ok h
      cases hr
      refine congrArg NamespaceRoots.ofFound (NamespaceRoots.flatten_of_mapM ?_ hall)
      intro root list hlist
      obtain ⟨m, hm, hfolders⟩ := NamespaceRoots.bind_eq_ok hlist
      cases hfolders
      rw [hm]
      rfl
  | largeAll =>
      rw [hkind] at h
      cases h
      refine congrArg NamespaceRoots.ofFound (List.flatMap_congr fun root _ => ?_)
      rw [NamespaceRoots.searchProjects]
      cases NamespaceRoots.subfolders t w.exclusion root with
      | error cause => rfl
      | ok projects =>
          rw [List.flatMap_map]
          exact List.flatMap_congr fun p _ => NamespaceRoots.searchModules_eq_search t _ p
  | largePartial =>
      rw [hkind] at h
      cases h
      refine congrArg NamespaceRoots.ofFound (List.flatMap_congr fun root _ => ?_)
      rw [NamespaceRoots.searchModules_eq_search, List.flatMap_singleton]
  | monorepo | single | singleWithFramework | unknown =>
      rw [hkind] at h
      cases h
      simp only [List.flatMap_singleton]

/-- When the folders that are given are apart, so are the starts of the search. -/
theorem starts_apart (ht : t.WellNamed) (hdistinct : t.Distinct)
    (h : (w.given t).Pairwise Path.Apart) :
    (w.allStarts t).Pairwise Path.Apart := by
  have hmodules : ∀ p : Path, p.place <+: (p.join NamespaceRoots.modulesName).place :=
    fun p => Path.place_prefix_join (by decide)
  have hself : ∀ roots : List Path, roots.flatMap (fun root => [root]) = roots :=
    fun roots => List.flatMap_singleton' roots
  unfold given starts at h
  unfold allStarts starts
  cases hkind : w.kind with
  | packageSet =>
      simpa only [hkind] using h
  | largeAll =>
      rw [hkind] at h
      refine Path.pairwise_apart_flatMap (fun p => p) h (fun root _ => ?_) ?_
      · cases hinner : NamespaceRoots.subfolders t w.exclusion root with
        | error cause => exact .nil
        | ok projects =>
            refine List.pairwise_map.mpr ?_
            refine (NamespaceRoots.subfolders_apart ht hdistinct hinner).imp fun hapart => ?_
            exact hapart.inside (hmodules _) (hmodules _)
      · intro root _ start hstart
        obtain ⟨project, hproject, rfl⟩ := List.mem_map.mp hstart
        cases hinner : NamespaceRoots.subfolders t w.exclusion root with
        | error cause =>
            rw [hinner] at hproject
            cases hproject
        | ok projects =>
            rw [hinner] at hproject
            have henters := (NamespaceRoots.mem_subfolders_iff ht hinner).mp hproject
            exact (NamespaceRoots.place_prefix_of_enters henters).trans (hmodules project)
  | largePartial =>
      rw [hkind] at h
      refine Path.pairwise_apart_flatMap (fun p => p) h
        (fun _ _ => List.pairwise_singleton _ _) ?_
      intro root _ start hstart
      obtain rfl := List.mem_singleton.mp hstart
      exact hmodules root
  | monorepo | single | singleWithFramework | unknown =>
      rw [hkind] at h
      rwa [hself]

end Workspace

namespace Candidate

variable {t : FileTree} {w : Workspace} {d : Dialect}

/-- The candidates of a root stand in different folders. -/
theorem inRoot_apart (ht : t.WellNamed) (hdistinct : t.Distinct) (root : Path) :
    (inRoot t w d root).Pairwise fun c c' => c.path.Apart c'.path := by
  unfold inRoot
  cases hinner : NamespaceRoots.subfolders t w.exclusion root with
  | error cause => exact .nil
  | ok folders =>
      dsimp only
      -- the file of a candidate stands in the folder of its name
      have hbelow : ∀ folder ∈ folders, ∀ found, entryFile? t d folder = some found →
          folder.place <+: found.1.place := by
        intro folder hfolder found hfound
        obtain ⟨name, hname, -, -, rfl⟩ := mem_subfolders ht hinner hfolder
        obtain ⟨ext, hext, hpath, -⟩ := (entryFile?_eq_some_iff
          (Path.fileName?_of_components (Path.components_join hname))).mp hfound
        obtain ⟨hne, hslash, -⟩ := d.entryExtensions_plain ext hext
        rw [hpath]
        exact Path.place_prefix_join (hname.withExtension hne hslash)
      rw [List.pairwise_filterMap]
      refine (NamespaceRoots.subfolders_apart ht hdistinct hinner).imp_of_mem ?_
      intro folder other hfolder hother hapart c hc c' hc'
      obtain ⟨found, hfound, rfl⟩ := Option.map_eq_some_iff.mp hc
      obtain ⟨found', hfound', rfl⟩ := Option.map_eq_some_iff.mp hc'
      exact hapart.inside (hbelow folder hfolder found hfound)
        (hbelow other hother found' hfound')

/-- Roots that are apart have candidates that are apart. -/
theorem discover_apart (ht : t.WellNamed) (hdistinct : t.Distinct) {r : NamespaceRoots}
    (h : (r.forDialect d).Pairwise Path.Apart) :
    (discover t w d r).Pairwise fun c c' => c.path.Apart c'.path := by
  refine Path.pairwise_apart_flatMap Candidate.path h
    (fun root _ => inRoot_apart ht hdistinct root) ?_
  intro root _ c hc
  obtain ⟨name, ext, hstands⟩ := stands_of_mem_inRoot ht hc
  have hpath : c.path.components =
      root.components ++ [name, name ++ "." ++ ext].map .name := hstands.components
  rw [Path.place_of_components hpath]
  exact List.prefix_append _ _

end Candidate

namespace Workspace

/-- The namespace roots of a dialect are the folders that are found from one of the starts. When no
folder that is given to be searched lies in another one, the roots of both dialects are apart, and
no candidate is listed twice; but a root that is found from two starts is repeated. -/
theorem searchRoots_apart {w : Workspace} {t : FileTree} (ht : t.WellNamed)
    (hdistinct : t.Distinct) {r : NamespaceRoots} (h : w.searchRoots t = .ok r) :
    (∀ d p, p ∈ r.forDialect d ↔
      ∃ start ∈ w.allStarts t, NamespaceRoots.Leads t w.exclusion w.depth start d p) ∧
    ((w.given t).Pairwise Path.Apart → (r.lwc ++ r.aura).Pairwise Path.Apart ∧
      ∀ d, ((Candidate.discover t w d r).map fun c => c.path.place).Nodup) ∧
    ∀ start other d p, [start, other].Sublist (w.allStarts t) →
      NamespaceRoots.Leads t w.exclusion w.depth start d p →
      NamespaceRoots.Leads t w.exclusion w.depth other d p → [p, p].Sublist (r.forDialect d) := by
  obtain rfl := searchRoots_eq h
  refine ⟨fun d p => ?_, fun hgiven => ?_, fun start other d p hstarts hstart hother => ?_⟩
  · rw [NamespaceRoots.mem_ofFound, List.mem_flatMap]
    exact exists_congr fun start => and_congr_right fun _ => NamespaceRoots.mem_search_iff ht
  · have hfound := NamespaceRoots.searches_apart ht hdistinct w.exclusion w.depth
      (starts_apart ht hdistinct hgiven)
    refine ⟨NamespaceRoots.ofFound_apart hfound, fun d => List.pairwise_map.mpr ?_⟩
    have hroots := NamespaceRoots.forDialect_pairwise hfound d
    exact (Candidate.discover_apart ht hdistinct hroots).imp Path.Apart.place_ne
  · exact NamespaceRoots.repeated_of_starts hstarts
      ((NamespaceRoots.mem_search_iff ht).mpr hstart)
      ((NamespaceRoots.mem_search_iff ht).mpr hother)

/-- Two projects side by side, and a project that is given beside the folder around it. -/
theorem searchRoots_apart_sample :
    let t := (FileTree.empty.plant ⟨"/ws/a/lwc/foo/foo.js"⟩ (.file none 1)).plant
      ⟨"/ws/b/app/bar/bar.cmp"⟩ (.file none 1)
    let w := Workspace.load t [⟨"/ws/a"⟩, ⟨"/ws/b"⟩]
    let t' := FileTree.empty.plant ⟨"/ws/pkg/lwc/foo/foo.js"⟩ (.file (some "") 0)
    let w' := Workspace.load t' [⟨"/ws"⟩, ⟨"/ws/pkg"⟩]
    (t.WellNamed ∧ t.Distinct ∧ w.searchRoots t = .ok ⟨[⟨"/ws/a/lwc"⟩], [⟨"/ws/b/app"⟩]⟩ ∧
      (w.given t).Pairwise Path.Apart ∧
      [(⟨"/ws/a/lwc"⟩ : Path), ⟨"/ws/b/app"⟩].Pairwise Path.Apart ∧
      ∀ d, ((Candidate.discover t w d ⟨[⟨"/ws/a/lwc"⟩], [⟨"/ws/b/app"⟩]⟩).map
        fun c => c.path.place).Nodup) ∧
    t'.WellNamed ∧ t'.Distinct ∧ ∃ r, w'.searchRoots t' = .ok r ∧
      [(⟨"/ws/pkg/lwc"⟩ : Path), ⟨"/ws/pkg/lwc"⟩].Sublist (r.forDialect .lwc) := by
  intro t w t' w'
  have hnamed : t.WellNamed ∧ t'.WellNamed := by decide +kernel
  have hdistinct : t.Distinct := (FileTree.Distinct.empty.plant _ _).plant _ _
  have hdistinct' : t'.Distinct := FileTree.Distinct.empty.plant _ _
  have hgiven : (w.given t).Pairwise Path.Apart := by decide +kernel
  have hfound : w.searchRoots t = .ok ⟨[⟨"/ws/a/lwc"⟩], [⟨"/ws/b/app"⟩]⟩ := by decide +kernel
  have hfound' : w'.searchRoots t' = .ok ⟨[⟨"/ws/pkg/lwc"⟩, ⟨"/ws/pkg/lwc"⟩], []⟩ := by
    decide +kernel
  have hleads : ∀ start ∈ w'.roots,
      NamespaceRoots.Leads t' w'.exclusion w'.depth start .lwc ⟨"/ws/pkg/lwc"⟩ := by
    intro start hstart
    refine (NamespaceRoots.mem_search_iff hnamed.2).mp ?_
    revert start
    decide +kernel
  obtain ⟨-, hapart, -⟩ := searchRoots_apart hnamed.1 hdistinct hfound
  obtain ⟨-, -, hrepeated⟩ := searchRoots_apart hnamed.2 hdistinct' hfound'
  refine ⟨⟨hnamed.1, hdistinct, hfound, hgiven, hapart hgiven⟩, hnamed.2, hdistinct', _, hfound',
    hrepeated ⟨"/ws"⟩ ⟨"/ws/pkg"⟩ .lwc _ ?_ (hleads _ ?_) (hleads _ ?_)⟩
  · decide +kernel
  · decide +kernel
  · decide +kernel

end Workspace

end ComponentAtlas
