import ComponentAtlas.Proofs.Indexing.Relevance
import ComponentAtlas.Proofs.Registry.Replacing
import ComponentAtlas.Proofs.Session.Footprint
import ComponentAtlas.Proofs.Session.FreshFiles
import ComponentAtlas.Proofs.Session.Placement

/-!
# Module paths that lead to every component

Behind a full index each own web component stands in a container of one namespace root and has its
namespace. The module paths of a root therefore list the components of that root, each once and
under its own specifier, and lead to their files. A module configuration that was missing holds
these paths and nothing else, as long as no root leads into another one: a folder that is made on
the way of a root can stand for the module configuration of another one.
-/

namespace ComponentAtlas

open ComponentAtlas.Json

/-- Whether the file of a tag stands in a container of a root. -/
def Tag.isIn (t : Tag) (root : Path) : Bool :=
  t.file.grandparent?.any root.same

/-- A tag in a container of a root, with the namespace of the root. -/
structure Tag.Rooted (w : Workspace) (d : Dialect) (root : Path) (t : Tag) : Prop where
  space : t.identity.space = w.namespaceForRoot root d
  file : ∃ folder name, PlainName folder ∧ PlainName name ∧
    t.file.components = root.components ++ [.name folder, .name name]

/-- An entry of the module paths of a root that stands for a tag: its specifier, and a path from the
root to its file. -/
def DerivedConfig.PointsTo (root : Path) (t : Tag) (entry : String × Value) : Prop :=
  ∃ folder name, PlainName folder ∧ PlainName name ∧
    entry = (t.identity.moduleSpecifier, .array [.string (folder ++ "/" ++ name)]) ∧
      (root.join (folder ++ "/" ++ name)).same t.file = true

section Rooted

variable {w : Workspace} {d : Dialect} {root outer : Path} {t : Tag}

namespace Tag.Rooted

theorem isIn_iff (h : t.Rooted w d root) :
    t.isIn outer = true ↔ outer.components = root.components := by
  obtain ⟨folder, name, -, -, hfile⟩ := h.file
  obtain ⟨grand, hgrand, hsteps⟩ := Path.components_grandparent? hfile
  rw [isIn, hgrand, Option.any_some, Path.same_iff, hsteps]

/-- Of different roots a tag is in one alone. -/
theorem filter_isIn (h : t.Rooted w d root) {roots : List Path} (hroot : root ∈ roots)
    (hroots : roots.Pairwise fun outer other => ¬outer.same other = true) :
    roots.filter t.isIn = [root] := by
  obtain ⟨folder, name, -, -, hfile⟩ := h.file
  obtain ⟨grand, hgrand, hsteps⟩ := Path.components_grandparent? hfile
  have hisIn : t.isIn = fun outer => outer.same grand := by
    funext outer
    rw [isIn, hgrand, Option.any_some]
  rw [hisIn]
  exact Path.filter_same_eq (fun outer => outer) hroots hroot (Path.same_iff.mpr hsteps.symm)

/-- Tags in one root have one namespace. -/
theorem space_eq (h : t.Rooted w d root) (hin : t.isIn outer = true) :
    t.identity.space = w.namespaceForRoot outer d := by
  rw [h.space, Workspace.namespaceForRoot_congr rfl (h.isIn_iff.mp hin)]

/-- The entry of a tag in the module paths of its root leads to its file. -/
theorem modulePath? (h : t.Rooted w d root) (hin : t.isIn outer = true) :
    ∃ entry, DerivedConfig.modulePath? outer t = some entry ∧
      DerivedConfig.PointsTo outer t entry := by
  obtain ⟨folder, name, hfolder, hname, hfile⟩ := h.file
  rw [← h.isIn_iff.mp hin] at hfile
  have hrelative : t.file.relativeTo? outer = some (folder ++ "/" ++ name) := by
    rw [Path.relativeTo?, Path.below?_eq_some.mpr hfile]
    rfl
  refine ⟨_, ?_, folder, name, hfolder, hname, rfl, ?_⟩
  · have hcond : t.file.grandparent?.any outer.same = true := hin
    rw [DerivedConfig.modulePath?, if_pos hcond, hrelative]
    rfl
  · rw [Path.join_join hfolder hname, Path.same_iff, Path.components_join hname,
      Path.components_join hfolder, hfile, List.append_assoc]
    rfl

end Tag.Rooted

theorem DerivedConfig.modulePath?_of_not_isIn (h : ¬t.isIn root = true) :
    modulePath? root t = none :=
  if_neg h

end Rooted

namespace Project

variable {p q : Project} {d : Dialect} {reuse : Bool} {r : NamespaceRoots}

/-- Each own tag behind a pass is rooted. -/
theorem PassesTo.rooted (h : p.PassesTo d reuse q) (hroots : p.namespaceRoots = .ok r)
    (hp : p.index.Grounded) (ht : p.files.WellNamed) :
    ∀ t ∈ (q.index.registry d).owned,
      ∃ root ∈ r.forDialect d, t.Rooted p.session.workspace d root := by
  intro t hmem
  obtain ⟨c, hc, hfile, -, hspace⟩ := h.candidate_of_owned hroots hp ht t hmem
  obtain ⟨root, hroot, name, ext, hstands⟩ := Candidate.stands_of_mem_discover ht hc
  exact ⟨root, hroot, hspace.trans hstands.space, name, _, hstands.plain, hstands.plainFile,
    (Path.same_iff.mp hfile).trans hstands.components⟩

/-- Each own tag behind a full index is rooted, in any order of the dialects. -/
theorem IndexesTo.rooted (h : p.IndexesTo q) (hroots : p.namespaceRoots = .ok r)
    (hp : p.index.Grounded) (ht : p.files.WellNamed) :
    ∀ t ∈ (q.index.registry d).owned,
      ∃ root ∈ r.forDialect d, t.Rooted p.session.workspace d root := by
  cases h with
  | @both first second m _ hne hfirst hsecond =>
      have hm := hfirst.grounded hp ht
      have hnamed := hfirst.wellNamed ht
      intro t hmem
      by_cases hd : d = second
      · subst hd
        obtain ⟨root, hroot, hspace, hfile⟩ :=
          hsecond.rooted (hfirst.namespaceRoots hroots) hm hnamed t hmem
        refine ⟨root, hroot, ?_, hfile⟩
        rw [hspace, hfirst.workspace]
        rfl
      · obtain rfl : d = first := Dialect.eq_of_ne hne hd
        have hq := hsecond.grounded hm hnamed
        refine hfirst.rooted hroots hp ht t ((Registry.mem_owned_iff (hm.sound.ordered d)).mpr ?_)
        rw [← (Registry.mem_owned_iff (hq.sound.ordered d)).mp hmem]
        exact (congrFun (hsecond.own_of_ne hm hnamed hd) t.key).symm

end Project

namespace DerivedConfig

section Paths

variable {w : Workspace} {roots : List Path} {root : Path} {r : Registry}

/-- A function that gives a result for the items that pass a test gives one for each of them. -/
theorem forall₂_filterMap {α β : Type} {R : α → β → Prop} {test : α → Bool} {f : α → Option β}
    {items : List α} (hpass : ∀ a ∈ items, test a = true → ∃ b, f a = some b ∧ R a b)
    (hfail : ∀ a ∈ items, ¬test a = true → f a = none) :
    List.Forall₂ R (items.filter test) (items.filterMap f) := by
  induction items with
  | nil => exact .nil
  | cons a items ih =>
      obtain ⟨ha, hpass⟩ := List.forall_mem_cons.mp hpass
      obtain ⟨hnot, hfail⟩ := List.forall_mem_cons.mp hfail
      by_cases htest : test a = true
      · obtain ⟨b, hb, hr⟩ := ha htest
        rw [List.filter_cons_of_pos htest, List.filterMap_cons_some hb]
        exact .cons hr (ih hpass hfail)
      · rw [List.filter_cons_of_neg htest, List.filterMap_cons_none (hnot htest)]
        exact ih hpass hfail

theorem keys_of_pointsTo {tags : List Tag} {entries : Fields}
    (h : List.Forall₂ (PointsTo root) tags entries) :
    entries.keys = tags.map (·.identity.moduleSpecifier) := by
  induction h with
  | nil => rfl
  | cons hentry hrest ih =>
      obtain ⟨folder, name, -, -, rfl, -⟩ := hentry
      exact congrArg (_ :: ·) ih

/-- The specifiers of tags in one root tell them apart. -/
theorem nodup_specifiers (hordered : Registry.Ordered r.tags)
    (hrooted : ∀ t ∈ r.owned, ∃ outer ∈ roots, t.Rooted w .lwc outer) (root : Path) :
    ((r.owned.filter (·.isIn root)).map (·.identity.moduleSpecifier)).Nodup := by
  have hspace : ∀ t ∈ r.owned.filter (·.isIn root),
      t.identity.space = w.namespaceForRoot root .lwc := by
    intro t ht
    obtain ⟨hmem, hin⟩ := List.mem_filter.mp ht
    obtain ⟨outer, -, h⟩ := hrooted t hmem
    exact h.space_eq hin
  have hkeys : ((r.owned.filter (·.isIn root)).map Tag.key).Nodup :=
    (Registry.nodup_keys_owned hordered).sublist (List.filter_sublist.map _)
  rw [List.Nodup, List.pairwise_map] at hkeys ⊢
  refine hkeys.imp_of_mem fun {t u} ht hu hne hsame => hne ?_
  rw [Identity.moduleSpecifier, Identity.moduleSpecifier, hspace t ht, hspace u hu,
    String.append_right_inj] at hsame
  rw [Tag.key, Tag.key, Identity.key, Identity.key, hspace t ht, hspace u hu, hsame]

/-- The module paths of a root are one entry for each tag in it, which points to its file. -/
theorem modulePaths_spec (hordered : Registry.Ordered r.tags)
    (hrooted : ∀ t ∈ r.owned, ∃ outer ∈ roots, t.Rooted w .lwc outer) (root : Path) :
    (modulePaths r root).keys.Nodup ∧
      List.Forall₂ (PointsTo root) (r.owned.filter (·.isIn root)) (modulePaths r root) := by
  have hpoints : List.Forall₂ (PointsTo root) (r.owned.filter (·.isIn root))
      (r.owned.filterMap (modulePath? root)) := by
    refine forall₂_filterMap (fun t ht hin => ?_) fun t _ hnot => modulePath?_of_not_isIn hnot
    obtain ⟨outer, -, h⟩ := hrooted t ht
    exact h.modulePath? hin
  have hkeys : (Fields.keys (r.owned.filterMap (modulePath? root))).Nodup := by
    rw [keys_of_pointsTo hpoints]
    exact nodup_specifiers hordered hrooted root
  rw [modulePaths, Fields.ofPairs_of_nodup hkeys]
  exact ⟨hkeys, hpoints⟩

end Paths

section Documents

/-- The value under a key of an object. -/
def member? (key : String) : Value → Option Value
  | .object fields => Fields.get? key fields
  | _ => none

/-- The module paths that a module configuration gives to a compiler. -/
def pathsIn? (v : Value) : Option Value :=
  (member? "compilerOptions" v).bind (member? "paths")

theorem pathsIn?_moduleData (r : Registry) (root : Path) :
    pathsIn? (moduleData r root) = some (.object (modulePaths r root)) :=
  rfl

variable {w : Workspace} {roots : NamespaceRoots} {root : Path}

/-- In front of the modules of a root there are only targets of other roots. -/
theorem exists_targets_split (hroot : root ∈ roots.lwc) (haside : roots.lwc.Pairwise Path.Aside) :
    ∃ front back, targets w roots = front ++ .modules root :: back ∧
      ∀ x ∈ front, x.folder.Aside root := by
  obtain ⟨before, after, hsplit⟩ := List.append_of_mem hroot
  refine ⟨before.flatMap fun outer => [.modules outer, .lint outer], .lint root ::
    (after.flatMap (fun outer => [.modules outer, .lint outer]) ++
      (w.roots.head?.map Target.editor).toList), ?_, fun x hx => ?_⟩
  · rw [targets, hsplit, List.flatMap_append, List.flatMap_cons]
    simp only [List.append_assoc, List.cons_append, List.nil_append]
  · obtain ⟨outer, houter, hx⟩ := List.mem_flatMap.mp hx
    rw [hsplit] at haside
    have hpair := (List.pairwise_append.mp haside).2.2 outer houter root List.mem_cons_self
    rcases List.mem_pair.mp hx with rfl | rfl
    · exact hpair
    · exact hpair

/-- Every missing module configuration is written, and holds its data and nothing else. -/
theorem writeAll_fresh {t : FileTree} (ht : t.Closed) (haside : roots.lwc.Pairwise Path.Aside)
    (r : Registry) (s : Settings) :
    let run := writeAll (Target.data r s) t (targets w roots)
    ∀ root ∈ roots.lwc, t.Anchored root →
      t.entry? (moduleFile t root) = .error .notFound →
        moduleFile t root ∈ run.2.written ∧
          readFile run.1 (moduleFile t root) = .ok (some (moduleData r root)) := by
  intro run root hroot hanchored hmissing
  obtain ⟨front, back, hsplit, hfront⟩ := exists_targets_split (w := w) hroot haside
  have hdistinct : (roots.lwc.map Path.place).Nodup :=
    List.pairwise_map.mpr (haside.imp fun hpair => hpair.apart.place_ne)
  have hapart := targets_apart (w := w) hdistinct
  rw [hsplit] at hapart
  have hrest := (List.pairwise_cons.mp (List.pairwise_append.mp hapart).2.1).1
  have hback : ∀ x ∈ back, ∀ f ∈ x.files, f.place ≠ (root.join "jsconfig.json").place :=
    fun x hx f hf => ((hrest x hx).ne (List.mem_pair.mpr (.inr rfl)) hf).symm
  have hfresh := writes_fresh ht hanchored hmissing rfl
    (Target.mergeable (.modules root) r s) hfront hback {}
  rw [← hsplit] at hfresh
  exact hfresh

/-- A root that leads through a missing `tsconfig.json` of another one makes a folder of it, which
is then taken for the module configuration there. -/
example :
    let inner : Path := ⟨"/w/lwc"⟩
    let outer : Path := ⟨"/w/q/../lwc/tsconfig.json/../../s"⟩
    let t := (FileTree.empty.plant ⟨"/w/q"⟩ .folder).plant inner .folder
    let run := writeAll (Target.data (.empty .lwc) .standard) t [.modules outer, .modules inner]
    t.holds (moduleFile t inner) = false ∧
      moduleFile run.1 inner = inner.join "tsconfig.json" ∧
        run.1.isFolder (moduleFile run.1 inner) = true ∧
          run.1.holds (inner.join "jsconfig.json") = false := by
  decide +kernel

end Documents

end DerivedConfig

namespace Project

open DerivedConfig

variable {p q : Project} {r : NamespaceRoots}

/-- Behind a full index over different roots, the module paths of a root are one entry for each own
tag in that root, under a specifier of its own and with the path to its file. Each own tag is in one
root. Writing the derived files into any tree succeeds, and where no root leads into another one, a
missing module configuration of a root comes to have exactly these paths. -/
theorem IndexesTo.modulePaths_complete (h : p.IndexesTo q) (hp : p.Reached)
    (hroots : p.namespaceRoots = .ok r)
    (hdistinct : r.lwc.Pairwise fun root other => ¬root.same other = true) :
    let tags := q.index.registry .lwc
    (∀ root ∈ r.lwc, (modulePaths tags root).keys.Nodup ∧
      List.Forall₂ (PointsTo root) (tags.owned.filter (·.isIn root)) (modulePaths tags root)) ∧
    (∀ tag ∈ tags.owned, ∃ root, r.lwc.filter tag.isIn = [root]) ∧
    ∀ t : FileTree, t.Closed → ∃ t' report,
      (⟨t, q.session⟩ : Project).writeDerived = (⟨t', q.session⟩, .ok report) ∧
        (r.lwc.Pairwise Path.Aside → ∀ root ∈ r.lwc, t.Anchored root →
          t.entry? (moduleFile t root) = .error .notFound →
            moduleFile t root ∈ report.written ∧
              ∃ v, readFile t' (moduleFile t root) = .ok (some v) ∧
                pathsIn? v = some (.object (modulePaths tags root))) := by
  intro tags
  have hrooted : ∀ tag ∈ tags.owned,
      ∃ root ∈ r.lwc, tag.Rooted p.session.workspace .lwc root :=
    h.rooted hroots hp.grounded hp.wellNamed
  refine ⟨fun root _ => modulePaths_spec ?_ hrooted root, fun tag htag => ?_, fun t ht => ?_⟩
  · exact (h.grounded hp.grounded hp.wellNamed).sound.ordered .lwc
  · obtain ⟨root, hroot, htagged⟩ := hrooted tag htag
    exact ⟨root, htagged.filter_isIn hroot hdistinct⟩
  · have hknown := h.known hroots
    have hfound : (⟨t, q.session⟩ : Project).namespaceRoots = .ok r := by
      rw [namespaceRoots, Workspace.namespaceRoots, hknown]
    have hremember : (⟨t, q.session⟩ : Project).remember = ⟨t, q.session⟩ := by
      rw [remember, Session.remember, remember_of_known _ hknown]
    refine ⟨_, _, by rw [writeDerived_eq hfound, hremember], ?_⟩
    intro haside root hroot hanchored hmissing
    obtain ⟨hwritten, hread⟩ := writeAll_fresh ht haside _ _ root hroot hanchored hmissing
    exact ⟨hwritten, _, hread, pathsIn?_moduleData _ root⟩

namespace Mapping

/-- A component below each of two namespace roots. -/
def files : FileTree :=
  (FileTree.empty.plant ⟨"/w/lwc/card/card.js"⟩
    (.file (some "export default class Card \x7b\x7d") 5)).plant ⟨"/w/s/row/row.js"⟩
      (.file (some "export default class Row \x7b\x7d") 6)

def workspace : Workspace :=
  ⟨[⟨"/w"⟩], .packageSet, { Settings.standard with cache := false }, ⟨[]⟩,
    some ⟨[⟨"/w/lwc"⟩, ⟨"/w/s"⟩], []⟩⟩

def project : Project :=
  ⟨files, .ofWorkspace workspace⟩

/-- What a full index leaves. -/
def indexed : Project :=
  ((project.pass .lwc true).1.pass .aura true).1

theorem indexes : project.IndexesTo indexed := by
  have hfirst := passesTo_pass project .lwc true rfl
  exact .both (by decide) hfirst (passesTo_pass _ .aura true (hfirst.namespaceRoots rfl))

end Mapping

/-- Each of two roots gets the path of its own component. -/
theorem modulePaths_complete_roots :
    ∃ t' report, (⟨Mapping.files, Mapping.indexed.session⟩ : Project).writeDerived =
        (⟨t', Mapping.indexed.session⟩, .ok report) ∧
      (∃ v paths, readFile t' ⟨"/w/lwc/jsconfig.json"⟩ = .ok (some v) ∧
        pathsIn? v = some (.object paths) ∧ Fields.keys paths = ["c/card"]) ∧
      ∃ v paths, readFile t' ⟨"/w/s/jsconfig.json"⟩ = .ok (some v) ∧
        pathsIn? v = some (.object paths) ∧ Fields.keys paths = ["s/row"] := by
  have hreached : Mapping.project.Reached := .start Mapping.workspace (by decide +kernel)
  obtain ⟨-, -, hwrite⟩ := Mapping.indexes.modulePaths_complete hreached rfl (by decide +kernel)
  obtain ⟨t', report, hrun, hfresh⟩ := hwrite Mapping.files (by decide +kernel)
  have haside : [(⟨"/w/lwc"⟩ : Path), ⟨"/w/s"⟩].Pairwise Path.Aside := by decide +kernel
  obtain ⟨-, v, hv, hcard⟩ := hfresh haside ⟨"/w/lwc"⟩ List.mem_cons_self
    (FileTree.anchored_of_straight ⟨["w", "lwc"], by decide⟩ _) rfl
  obtain ⟨-, u, hu, hrow⟩ := hfresh haside ⟨"/w/s"⟩ (List.mem_cons_of_mem _ List.mem_cons_self)
    (FileTree.anchored_of_straight ⟨["w", "s"], by decide⟩ _) rfl
  exact ⟨t', report, hrun, ⟨v, _, hv, hcard, by decide +kernel⟩, u, _, hu, hrow,
    by decide +kernel⟩

end Project

end ComponentAtlas
