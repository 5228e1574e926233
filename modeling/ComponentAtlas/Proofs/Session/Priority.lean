import ComponentAtlas.Proofs.Session.Incremental

/-!
# Containers with several entry files

Discovery selects one entry file of a container, an update compiles whatever file it is told of.
After an update the tag of a key is therefore that of a rebuild, in every order of its tasks,
exactly when the batch keeps to the files that discovery selects: nothing else is compiled, a file
is told when the selection moves to it, and so is the one that loses to a file that does not
compile.
-/

namespace ComponentAtlas

open Update

namespace Update

theorem lastTags_concat (outcomes : List (Path × Option Tag)) (path : Path) (u : Tag) :
    lastTags (outcomes ++ [(path, some u)]) = addTag (lastTags outcomes) u := by
  rw [lastTags, List.filterMap_append, List.foldl_append]
  rfl

/-- A tag that was compiled is that of the file that the change names. -/
theorem file_of_outcome {p : Project} {d : Dialect} {r : NamespaceRoots} {e : FileChange}
    {path : Path} {u : Tag} (h : outcome? p d r e = some (path, some u)) : u.file = e.path := by
  obtain ⟨-, -, g, text, time, -, -, -, hcompile⟩ := outcome?_eq_some h
  exact (Candidate.compile?_eq_some hcompile).2.1

end Update

/-- What a rebuild holds under a key. -/
theorem Workspace.lookup_rebuilt {w : Workspace} {t : FileTree} {d : Dialect} {r : NamespaceRoots}
    (ht : t.WellNamed) (hroots : w.searchRoots t = .ok r) (key : String) :
    Registry.lookup (w.rebuilt t d) key =
      Holdings.ofTags (Candidate.compiledTags t d (Candidate.discover t w d r)) key := by
  obtain ⟨ix, hix, howned, hown⟩ := compiled_project (w := w.forgetRoots) (d := d) ht hroots
  rw [rebuilt, howned, Registry.lookup_owned (hix.sound.ordered d)]
  exact congrFun hown key

namespace Project

section Selected

variable {p q : Project} {d : Dialect} {r : NamespaceRoots} {old : FileTree} {V : Versions}
  {changes : List FileChange} {key : String}

section Exact

variable (h : Synced p d r old V changes) (hroots : p.namespaceRoots = .ok r)
  (hasks : ¬asksPass changes d r = true)
include h hroots hasks

/-- The outcomes of a batch may come in any order, and then the last tag of a key is held, or else
what was held before, unless it is removed. -/
theorem exists_updatesTo {outcomes : List (Path × Option Tag)}
    (houtcomes : outcomes.Perm (changes.filterMap (outcome? p d r))) (key : String) :
    ∃ q, p.UpdatesTo changes d q ∧ q.index.own d key =
      ((lastTags outcomes).reverse.find? fun t => t.key == key).or
        (if key ∈ changes.filterMap (deletedKey? p d) ++
            outcomes.filterMap (brokenKey? (p.index.registry d)) then none
          else p.index.own d key) := by
  have hentries := entry_of_upsert houtcomes (.refl _)
  have hown := h.grounded.sound.own_commit fun t ht => (hentries t ht).1
  refine ⟨_, .batch hroots hasks houtcomes (.refl _), (congrFun hown key).trans ?_⟩
  rw [batchOf, Holdings.changeAll_append, Holdings.changeAll_upsert, Holdings.changeAll_remove]

/-- If every order of the tasks leaves what a rebuild holds, the batch keeps to the files that
discovery selects. -/
theorem prefers_of_alike (halike : ∀ q, p.UpdatesTo changes d q →
      AlikeOption (q.index.own d key) (Holdings.ofTags (Candidate.compiledTags p.files d
        (Candidate.discover p.files p.session.workspace d r)) key)) :
    Prefers changes p d r old key := by
  refine ⟨fun e he u hu hkey => ?_, fun c hc hkey hcompile => ?_,
    fun c hc hkey hcompile hnone hisFile => ?_⟩
  · -- The tag of the change may come last, and is then that of a candidate.
    obtain ⟨⟨path, _⟩, ho, rfl⟩ := Option.bind_eq_some_iff.mp hu
    have hmem : (path, some u) ∈ changes.filterMap (outcome? p d r) :=
      List.mem_filterMap.mpr ⟨e, he, ho⟩
    have hlast := (List.perm_append_singleton (path, some u) _).trans
      (List.perm_cons_erase hmem).symm
    obtain ⟨q, hq, hown⟩ := exists_updatesTo h hroots hasks hlast key
    have hfind : (lastTags ((changes.filterMap (outcome? p d r)).erase (path, some u) ++
        [(path, some u)])).reverse.find? (fun t => t.key == key) = some u := by
      rw [lastTags_concat, addTag, List.reverse_append]
      exact List.find?_cons_of_pos (by simpa using hkey)
    have hrel := halike q hq
    rw [hown, hfind, Option.some_or] at hrel
    obtain ⟨v, hv, huv⟩ := hrel.some_left
    obtain ⟨c, hc, hcompile⟩ := List.mem_filterMap.mp (Holdings.ofTags_mem hv).1
    refine ⟨c, hc, Path.same_iff.mpr ?_⟩
    rw [← file_of_outcome ho, ← (Candidate.compile?_eq_some hcompile).2.1, huv.components]
  · refine or_iff_not_imp_left.mpr fun hno => ?_
    obtain ⟨v₀, hv₀⟩ := Option.isSome_iff_exists.mp hcompile
    obtain ⟨-, hfile, -, -, hvkey⟩ := Candidate.compile?_eq_some hv₀
    obtain ⟨v, hv, halike₀⟩ := h.ofTags_of_candidate hc hv₀
    obtain ⟨q, hq, hown⟩ := exists_updatesTo h hroots hasks (.refl _) key
    have hrel := halike q hq
    rw [hvkey.trans hkey] at hv
    rw [hown, hv] at hrel
    obtain ⟨t, ht, htv⟩ := hrel.some_right
    have hsteps : t.file.components = c.path.components := by
      rw [htv.components, ← halike₀.components, hfile]
    -- The tag that is held was not compiled now, because its file is not told.
    obtain hfind | ⟨-, hheld⟩ := Option.or_eq_some_iff.mp ht
    · have hlast := List.mem_reverse.mp (List.mem_of_find?_eq_some hfind)
      obtain ⟨⟨path, _⟩, ho, rfl⟩ := mem_lastTags hlast
      obtain ⟨e, he, houtcome⟩ := List.mem_filterMap.mp ho
      rw [file_of_outcome houtcome] at hsteps
      have hspelled := h.tells.spelled e he c (List.mem_append_right _ hc)
        (Path.same_iff.mpr hsteps)
      exact absurd ⟨e, he, (outcome?_eq_some houtcome).2.1, hspelled⟩ hno
    · split at hheld
      · cases hheld
      · obtain ⟨c', hc', u, hu, htu, -⟩ := h.candidate_of_own hheld
        refine ⟨c', hc', Path.same_iff.mpr ?_⟩
        rw [← (Candidate.compile?_eq_some hu).2.1, ← htu.components, hsteps]
  · by_contra hno
    obtain ⟨u, hu⟩ := Option.isSome_iff_exists.mp hcompile
    obtain ⟨t, ht, -⟩ := h.own_of_candidate hc hu
    have hgiven : Holdings.ofTags (Candidate.compiledTags p.files d
        (Candidate.discover p.files p.session.workspace d r)) key = none := by
      refine Holdings.ofTags_eq_none.mpr fun v hv hvkey => ?_
      obtain ⟨c', hc', hcompile'⟩ := List.mem_filterMap.mp hv
      have := hnone c' hc' ((Candidate.compile?_eq_some hcompile').2.2.2.2.symm.trans hvkey)
      rw [hcompile'] at this
      cases this
    obtain ⟨q, hq, hown⟩ := exists_updatesTo h hroots hasks (.refl _) key
    have hrel := halike q hq
    have hkept := h.not_removed (.refl _) hc hisFile hno
    rw [hkey] at hkept ht
    rw [hown, hgiven, if_neg hkept, ht] at hrel
    cases hfind : (lastTags (changes.filterMap (outcome? p d r))).reverse.find?
        (fun t => t.key == key) with
    | some v =>
        rw [hfind] at hrel
        cases hrel
    | none =>
        rw [hfind] at hrel
        cases hrel

end Exact

/-- An update that starts from what a rebuild on the old files holds succeeds. Under each key it
ends in every order of its tasks with what a rebuild on the new files holds exactly when it is a
full pass or the batch keeps to the files that discovery selects. Containers may hold several entry
files; the other conditions are those under which an update rebuilds where each holds one. -/
theorem update_rebuilds_iff (hroots : p.namespaceRoots = .ok r)
    (hold : p.session.workspace.searchRoots old = .ok r)
    (hnew : p.session.workspace.searchRoots p.files = .ok r)
    (hbefore : Listed old p.session.workspace d r)
    (hafter : Listed p.files p.session.workspace d r)
    (hshows : old.Shows V) (hshows' : p.files.Shows V) (hindex : p.index.Grounded)
    (howned : AlikeTags (p.index.registry d).owned (p.session.workspace.rebuilt old d))
    (hsnapshot : ¬p.session.restored.contains d = true →
      ∀ t ∈ p.storedTags d, t.dialect = d → V.Honest d t)
    (htells : Tells changes p.session.workspace d r old p.files) :
    (p.update changes d).2.isOk = true ∧ p.UpdatesTo changes d (p.update changes d).1 ∧
      ∀ key, (∀ q, p.UpdatesTo changes d q →
          AlikeOption (Registry.lookup (q.index.registry d).owned key)
            (Registry.lookup (p.session.workspace.rebuilt p.files d) key)) ↔
        asksPass changes d r = true ∨ Prefers changes p d r old key := by
  refine ⟨update_isOk hroots, updatesTo_update hroots, fun key => ?_⟩
  have hsynced : Synced p d r old V changes :=
    ⟨hbefore, hafter, hshows, hshows', hindex,
      (Workspace.alike_rebuilt_iff hbefore.named hold hindex).mp howned, htells⟩
  have hlookup : ∀ q, p.UpdatesTo changes d q →
      Registry.lookup (q.index.registry d).owned key = q.index.own d key := fun q hq =>
    Registry.lookup_owned ((hq.grounded_of_synced hsynced).sound.ordered d) key
  rw [Workspace.lookup_rebuilt hafter.named hnew]
  constructor
  · refine fun halike => or_iff_not_imp_left.mpr fun hasks => ?_
    refine prefers_of_alike hsynced hroots hasks fun q hq => ?_
    rw [← hlookup q hq]
    exact halike q hq
  · intro hprefers q hq
    rw [hlookup q hq]
    exact hq.own_alike_of_synced hsynced hroots hsnapshot hprefers

end Selected

namespace Doubled

/-- A container with two entry files, of which the second one has a time. -/
def tree (time : Nat) : FileTree :=
  (FileTree.empty.plant ⟨"/w/s/a/a.app"⟩ (.file (some "<aura:component/>") 5)).plant
    ⟨"/w/s/a/a.cmp"⟩ (.file (some "<aura:component/>") time)

/-- The tag of the first file. -/
def tag : Tag :=
  ⟨⟨"s", "a", .colon⟩, .aura, ⟨"/w/s/a/a.app"⟩, 5, none, some ⟨0, 0, 0, 17⟩, [], []⟩

/-- A session that has indexed the tree before the second file was changed. -/
def project : Project :=
  ⟨tree 6, Sample.workspace, ⟨"lightning", .empty .lwc, ⟨.aura, [tag], ["s"]⟩⟩, [.aura]⟩

def changes : List FileChange :=
  [⟨⟨"/w/s/a/a.cmp"⟩, .changed⟩]

theorem grounded : project.index.Grounded := by
  refine ⟨⟨rfl, rfl, .nil, List.pairwise_singleton _ _, rfl, rfl, fun _ h => nomatch h⟩,
    fun d t ht => ?_⟩
  cases d with
  | lwc => cases ht
  | aura =>
      obtain rfl := List.mem_singleton.mp ht
      decide +kernel

theorem shows_tree (time : Nat) : (tree time).Shows fun _ _ => some "<aura:component/>" := by
  refine FileTree.shows_of_entries fun e he text t hfile => ?_
  have hentries : (tree time).entries =
      [(["w", "s", "a", "a.cmp"], .file (some "<aura:component/>") time),
        (["w", "s", "a", "a.app"], .file (some "<aura:component/>") 5),
        (["w", "s", "a"], .folder), (["w", "s"], .folder), (["w"], .folder)] := by
    rfl
  rw [hentries] at he
  simp only [List.mem_cons, List.not_mem_nil, or_false] at he
  rcases he with rfl | rfl | rfl | rfl | rfl <;> cases hfile <;> rfl

end Doubled

set_option maxRecDepth 4000 in
/-- A change of the second file of a container registers it in place of the first one. -/
theorem update_registers_unselected :
    ¬∀ q, Doubled.project.UpdatesTo Doubled.changes .aura q →
      AlikeOption (Registry.lookup (q.index.registry .aura).owned "s:a")
        (Registry.lookup (Sample.workspace.rebuilt (Doubled.tree 6) .aura) "s:a") := by
  have howned : [Doubled.tag] = Sample.workspace.rebuilt (Doubled.tree 5) .aura := by
    decide +kernel
  have hold : Sample.workspace.searchRoots (Doubled.tree 5) = .ok Sample.roots := by
    decide +kernel
  have hnew : Sample.workspace.searchRoots (Doubled.tree 6) = .ok Sample.roots := by
    decide +kernel
  have hbefore : Listed (Doubled.tree 5) Sample.workspace .aura Sample.roots := by
    constructor
    all_goals decide +kernel
  have hafter : Listed (Doubled.tree 6) Sample.workspace .aura Sample.roots := by
    constructor
    all_goals decide +kernel
  have htells : Tells Doubled.changes Sample.workspace .aura Sample.roots (Doubled.tree 5)
      (Doubled.tree 6) := by
    constructor
    all_goals decide +kernel
  have halike : AlikeTags (Doubled.project.index.registry .aura).owned
      (Sample.workspace.rebuilt (Doubled.tree 5) .aura) := by
    rw [← howned]
    exact AlikeTags.refl [Doubled.tag]
  obtain ⟨-, -, hiff⟩ := update_rebuilds_iff (p := Doubled.project) rfl hold hnew hbefore hafter
    (Doubled.shows_tree 5) (Doubled.shows_tree 6) Doubled.grounded halike
    (fun hnot => absurd rfl hnot) htells
  intro hall
  obtain hasks | hprefers := (hiff "s:a").mp hall
  · exact absurd hasks (by decide +kernel)
  · have honly : ∃ u ∈ (outcome? Doubled.project .aura Sample.roots
        ⟨⟨"/w/s/a/a.cmp"⟩, .changed⟩).bind Prod.snd, u.key = "s:a" := by
      decide +kernel
    obtain ⟨u, hu, hkey⟩ := honly
    obtain ⟨c, hc, hsame⟩ := hprefers.only _ List.mem_cons_self u hu hkey
    have hother : ∀ c ∈ Candidate.discover (Doubled.tree 6) Sample.workspace .aura Sample.roots,
        ¬(⟨"/w/s/a/a.cmp"⟩ : Path).same c.path = true := by
      decide +kernel
    exact hother c hc hsame

end Project

end ComponentAtlas
