import ComponentAtlas.Proofs.Indexing.Versions
import ComponentAtlas.Proofs.Registry.Cascade
import ComponentAtlas.Session.Pass

/-!
# Full passes in any order

The tasks of a full pass complete in any order, so a pass may settle with any order of its results.
When the tags that it may reuse are honest, what it leaves is in each case what a pass without
stored tags leaves on the same files.
-/

namespace ComponentAtlas

namespace Candidate

/-- A result that a pass may have for a candidate: a stored tag of the same file, time and
namespace, or the compiled one. -/
inductive Resolves (t : FileTree) (d : Dialect) (stored : List Tag) (c : Candidate) :
    Bool × Option Tag → Prop where
  | reused {tag : Tag} (hstored : tag ∈ stored) (hfile : tag.file.same c.path = true)
      (htime : tag.modifiedAt = c.modifiedAt) (haccepts : c.accepts d tag = true) :
      Resolves t d stored c (true, some tag)
  | compiled : Resolves t d stored c (false, c.compile? t d)

section Resolve

variable {t : FileTree} {d : Dialect} {stored : List Tag}

theorem Resolves.mono {others : List Tag} {c : Candidate} {result : Bool × Option Tag}
    (h : c.Resolves t d stored result) (hsub : ∀ tag ∈ stored, tag ∈ others) :
    c.Resolves t d others result := by
  cases h with
  | reused hstored hfile htime haccepts => exact .reused (hsub _ hstored) hfile htime haccepts
  | compiled => exact .compiled

/-- Each candidate has one result. -/
theorem resolve_forall₂ (t : FileTree) (d : Dialect) (stored : List Tag) (cs : List Candidate) :
    List.Forall₂ (Resolves t d stored) cs (resolve t d stored cs) := by
  induction cs generalizing stored with
  | nil => exact .nil
  | cons c rest ih =>
      refine .cons ?_ ?_
      · dsimp only
        split
        · next tag hreused =>
            obtain ⟨hfound, haccepts⟩ := Option.filter_eq_some_iff.mp hreused
            obtain ⟨hlast, htime⟩ := Option.filter_eq_some_iff.mp hfound
            have hmem := List.mem_of_find?_eq_some hlast
            have hfile := List.find?_some hlast
            exact .reused (List.mem_reverse.mp hmem) hfile (by simpa using htime) haccepts
        · exact .compiled
      · refine (ih (stored.filter fun tag => !tag.file.same c.path)).imp ?_
        intro c' result h
        exact h.mono fun tag htag => (List.mem_filter.mp htag).1

theorem exists_of_mem_resolve {cs : List Candidate} {result : Bool × Option Tag}
    (h : result ∈ resolve t d stored cs) : ∃ c ∈ cs, c.Resolves t d stored result := by
  have hall := resolve_forall₂ t d stored cs
  generalize resolve t d stored cs = results at h hall
  induction hall with
  | nil => cases h
  | cons hhead htail ih =>
      rcases List.mem_cons.mp h with rfl | hmem
      · exact ⟨_, List.mem_cons_self, hhead⟩
      · obtain ⟨c, hc, hres⟩ := ih hmem
        exact ⟨c, List.mem_cons_of_mem _ hc, hres⟩

theorem exists_result (t : FileTree) (d : Dialect) (stored : List Tag) {cs : List Candidate}
    {c : Candidate} (h : c ∈ cs) :
    ∃ result ∈ resolve t d stored cs, c.Resolves t d stored result := by
  have hall := resolve_forall₂ t d stored cs
  generalize resolve t d stored cs = results at hall ⊢
  induction hall with
  | nil => cases h
  | cons hhead htail ih =>
      rcases List.mem_cons.mp h with rfl | hmem
      · exact ⟨_, List.mem_cons_self, hhead⟩
      · obtain ⟨result, hresult, hres⟩ := ih hmem
        exact ⟨result, List.mem_cons_of_mem _ hresult, hres⟩

theorem resolve_nil (cs : List Candidate) :
    resolve t d [] cs = cs.map fun c => (false, c.compile? t d) := by
  induction cs with
  | nil => rfl
  | cons c rest ih => exact congrArg (_ :: ·) ih

end Resolve

/-- The compiled tags of some candidates. -/
def compiledTags (t : FileTree) (d : Dialect) (cs : List Candidate) : List Tag :=
  cs.filterMap fun c => c.compile? t d

section Tags

variable {t : FileTree} {d : Dialect} {w : Workspace} {r : NamespaceRoots} {V : Versions}

theorem compile?_eq_some {c : Candidate} {tag : Tag} (h : c.compile? t d = some tag) :
    tag.dialect = d ∧ tag.file = c.path ∧ tag.modifiedAt = c.modifiedAt ∧
      tag.identity.space = c.space ∧ tag.key = c.key := by
  obtain ⟨source, -, hsource⟩ := Option.bind_eq_some_iff.mp (compile?_eq_bind t d c ▸ h)
  exact tagOf?_eq_some hsource

/-- A result has a tag of the dialect with the file of its candidate. -/
theorem Resolves.tag {stored : List Tag} {c : Candidate} {result : Bool × Option Tag} {tag : Tag}
    (h : c.Resolves t d stored result) (htag : result.2 = some tag) :
    tag.dialect = d ∧ tag.file.same c.path = true ∧ tag.modifiedAt = c.modifiedAt ∧
      tag.identity.space = c.space := by
  cases h with
  | reused hstored hfile htime haccepts =>
      obtain rfl := Option.some.inj htag
      rw [accepts, Bool.and_eq_true, beq_iff_eq, beq_iff_eq] at haccepts
      exact ⟨haccepts.1, hfile, htime, haccepts.2⟩
  | compiled =>
      obtain ⟨hdialect, hfile, htime, hspace, -⟩ := compile?_eq_some htag
      exact ⟨hdialect, by rw [hfile, Path.same_refl], htime, hspace⟩

/-- With honest stored tags every result is what its file gives. -/
theorem Resolves.alike {stored : List Tag} {root : Path} {name ext : String} {c : Candidate}
    {result : Bool × Option Tag} (h : c.Resolves t d stored result)
    (hc : c.Stands t w d root name ext) (hshows : t.Shows V)
    (hhonest : ∀ tag ∈ stored, tag.dialect = d → V.Honest d tag) :
    AlikeOption result.2 (c.compile? t d) := by
  cases h with
  | compiled => exact .refl _
  | reused hstored hfile htime haccepts =>
      rw [accepts, Bool.and_eq_true, beq_iff_eq, beq_iff_eq] at haccepts
      rw [hc.compile?_eq_tag? hshows]
      exact (hhonest _ hstored haccepts.1).stands hfile htime haccepts.2

/-- Candidates of one key have the same tag. -/
theorem compiledTags_keys (ht : t.WellNamed) (hshows : t.Shows V)
    (hdistinct : Distinct (discover t w d r)) :
    ∀ u ∈ compiledTags t d (discover t w d r), ∀ v ∈ compiledTags t d (discover t w d r),
      u.key = v.key → u.Alike v := by
  intro u hu v hv hkey
  obtain ⟨c, hc, hcu⟩ := List.mem_filterMap.mp hu
  obtain ⟨c', hc', hcv⟩ := List.mem_filterMap.mp hv
  have hsame := hdistinct c hc c' hc' <| by
    rw [← (compile?_eq_some hcu).2.2.2.2, ← (compile?_eq_some hcv).2.2.2.2, hkey]
  obtain ⟨root, -, name, ext, hstands⟩ := stands_of_mem_discover ht hc
  obtain ⟨root', -, name', ext', hstands'⟩ := stands_of_mem_discover ht hc'
  have hpath := Path.same_iff.mp hsame
  obtain ⟨hspace, htime⟩ := hstands.eq_of_same hstands' hpath
  have hrel : AlikeOption (c.compile? t d) (c'.compile? t d) := by
    rw [hstands.compile?_eq_tag? hshows, hstands'.compile?_eq_tag? hshows]
    exact Versions.tag?_alike hpath hspace htime
  rw [hcu, hcv] at hrel
  cases hrel with
  | some h => exact h

end Tags

end Candidate

namespace Project

theorem mem_passTags {results : List (Bool × Option Tag)} {tag : Tag} :
    tag ∈ passTags results ↔ ∃ result ∈ results, result.2 = some tag := by
  simp only [passTags, List.partition_eq_filter_filter, List.filterMap_append, List.mem_append,
    List.mem_filterMap, List.mem_filter]
  constructor
  · rintro (⟨result, ⟨hmem, -⟩, htag⟩ | ⟨result, ⟨hmem, -⟩, htag⟩)
    · exact ⟨result, hmem, htag⟩
    · exact ⟨result, hmem, htag⟩
  · rintro ⟨result, hmem, htag⟩
    cases hb : result.1 with
    | true => exact .inl ⟨result, ⟨hmem, hb⟩, htag⟩
    | false => exact .inr ⟨result, ⟨hmem, by simp [hb]⟩, htag⟩

theorem passTags_compiled (t : FileTree) (d : Dialect) (cs : List Candidate) :
    passTags (Candidate.resolve t d [] cs) = Candidate.compiledTags t d cs := by
  rw [Candidate.resolve_nil]
  simp [passTags, List.partition_eq_filter_filter, List.filter_map, Function.comp_def,
    Candidate.compiledTags, List.filterMap_map]

/-- With honest stored tags, results in any order leave what the compiled tags leave. -/
theorem ofTags_passTags {t : FileTree} {d : Dialect} {w : Workspace} {r : NamespaceRoots}
    {V : Versions} {stored : List Tag} {results : List (Bool × Option Tag)}
    (ht : t.WellNamed) (hshows : t.Shows V)
    (hdistinct : Candidate.Distinct (Candidate.discover t w d r))
    (hhonest : ∀ tag ∈ stored, tag.dialect = d → V.Honest d tag)
    (hresults : results.Perm (Candidate.resolve t d stored (Candidate.discover t w d r))) :
    (Holdings.ofTags (passTags results)).Alike
      (Holdings.ofTags (Candidate.compiledTags t d (Candidate.discover t w d r))) := by
  refine Holdings.ofTags_alike (fun tag htag => ?_) (fun tag htag => ?_)
    (Candidate.compiledTags_keys ht hshows hdistinct)
  · obtain ⟨result, hmem, hresult⟩ := mem_passTags.mp htag
    obtain ⟨c, hc, hres⟩ := Candidate.exists_of_mem_resolve (hresults.mem_iff.mp hmem)
    obtain ⟨root, -, name, ext, hstands⟩ := Candidate.stands_of_mem_discover ht hc
    have hrel := hres.alike hstands hshows hhonest
    rw [hresult] at hrel
    obtain ⟨u, hu, halike⟩ := hrel.some_left
    exact ⟨u, List.mem_filterMap.mpr ⟨c, hc, hu⟩, halike⟩
  · obtain ⟨c, hc, hcompile⟩ := List.mem_filterMap.mp htag
    obtain ⟨result, hmem, hres⟩ := Candidate.exists_result t d stored hc
    obtain ⟨root, -, name, ext, hstands⟩ := Candidate.stands_of_mem_discover ht hc
    have hrel := hres.alike hstands hshows hhonest
    rw [hcompile] at hrel
    obtain ⟨u, hu, halike⟩ := hrel.some_right
    exact ⟨u, mem_passTags.mpr ⟨result, hresults.mem_iff.mpr hmem, hu⟩, halike⟩

end Project

/-- Lists of tags that are alike place by place. -/
abbrev AlikeTags : List Tag → List Tag → Prop :=
  List.Forall₂ Tag.Alike

theorem AlikeTags.refl (tags : List Tag) : AlikeTags tags tags :=
  List.forall₂_same.mpr fun t _ => .refl t

namespace Registry

theorem lookup_alike {tags others : List Tag} (h : AlikeTags tags others) (key : String) :
    AlikeOption (lookup tags key) (lookup others key) := by
  induction h with
  | nil => exact .none
  | cons hhead htail ih =>
      rw [lookup_cons, lookup_cons, hhead.key]
      split
      · exact .some hhead
      · exact ih

/-- Own tags are alike when what is held of the dialect is. -/
theorem owned_alike_iff {r r' : Registry} (h : Ordered r.tags) (h' : Ordered r'.tags) :
    AlikeTags r.owned r'.owned ↔ r.own.Alike r'.own := by
  constructor
  · intro halike key
    rw [← lookup_owned h, ← lookup_owned h']
    exact lookup_alike halike key
  · intro halike
    refine (ordered_owned h).forall₂_of_lookup (ordered_owned h') fun key => ?_
    rw [lookup_owned h, lookup_owned h']
    exact halike key

end Registry

namespace Index

/-- An index in order in which the file of each tag is an entry file of its dialect. -/
structure Grounded (ix : Index) : Prop where
  sound : ix.Sound
  entries : ix.All fun t => t.file.isEntry t.dialect.entryExtensions = true

theorem grounded_empty (standard : String) : (empty standard).Grounded := by
  refine ⟨sound_empty standard, fun d t ht => ?_⟩
  cases d <;> cases ht

/-- A batch of own tags of entry files keeps an index grounded. -/
theorem Grounded.commit {ix : Index} (h : ix.Grounded) {d : Dialect} {changes : List TagChange}
    (hc : ∀ t, .upsert t ∈ changes → t.dialect = d ∧ t.file.isEntry d.entryExtensions = true) :
    (ix.commit d changes).1.Grounded := by
  refine ⟨h.sound.commit fun t ht => (hc t ht).1, ?_⟩
  refine h.entries.commit (fun t ht => ht) h.sound.aura_dialect fun t ht => ?_
  obtain ⟨hdialect, hentry⟩ := hc t ht
  rw [hdialect]
  exact hentry

theorem Grounded.replaceOwned {ix : Index} (h : ix.Grounded) {d : Dialect} {tags : List Tag}
    (ht : ∀ t ∈ tags, t.dialect = d ∧ t.file.isEntry d.entryExtensions = true) :
    (ix.replaceOwned d tags).1.Grounded :=
  h.commit fun t hmem => ht t (Registry.upsert_mem_replacement hmem)

end Index

namespace Project

section Settle

variable (p : Project) (d : Dialect) (reuse : Bool)

/-- The results of a pass in the order of its candidates. -/
def passResults (roots : NamespaceRoots) : List (Bool × Option Tag) :=
  Candidate.resolve p.files d (if reuse then p.storedTags d else [])
    (Candidate.discover p.files p.session.workspace d roots)

/-- The project after a pass with some results. -/
def settle (results : List (Bool × Option Tag)) : Project :=
  let p := if reuse then p.markRestored d else p
  (p.replaceOwned d (passTags results)).1.saveSnapshot d

/-- A full pass whose results come in any order. -/
inductive PassesTo : Project → Prop where
  | settle {roots : NamespaceRoots} {results : List (Bool × Option Tag)}
      (hroots : p.namespaceRoots = .ok roots)
      (hresults : results.Perm (p.remember.passResults d reuse roots)) :
      PassesTo (p.remember.settle d reuse results)

theorem fst_passOver (roots : NamespaceRoots) :
    (p.passOver d reuse roots).1 = p.settle d reuse (p.passResults d reuse roots) := by
  unfold passOver settle passResults
  dsimp only

/-- A pass in the order of the candidates settles with their results. -/
theorem fst_pass {roots : NamespaceRoots} (h : p.namespaceRoots = .ok roots) :
    (p.pass d reuse).1 = p.remember.settle d reuse (p.remember.passResults d reuse roots) := by
  unfold pass
  dsimp only
  rw [namespaceRoots_remember, h]
  exact fst_passOver p.remember d reuse roots

/-- A full pass in the order of the candidates is one of them. -/
theorem passesTo_pass {roots : NamespaceRoots} (h : p.namespaceRoots = .ok roots) :
    p.PassesTo d reuse (p.pass d reuse).1 := by
  rw [fst_pass p d reuse h]
  exact .settle h (List.Perm.refl _)

/-- A full pass with known roots succeeds, and counts no component outside of them. -/
theorem pass_eq_ok {roots : NamespaceRoots} (h : p.namespaceRoots = .ok roots) :
    ∃ stats, (p.pass d reuse).2 = .ok stats ∧ stats.unrooted = 0 := by
  unfold pass
  dsimp only
  rw [namespaceRoots_remember, h]
  exact ⟨_, rfl, rfl⟩

theorem pass_isOk {roots : NamespaceRoots} (h : p.namespaceRoots = .ok roots) :
    (p.pass d reuse).2.isOk = true := by
  obtain ⟨stats, hstats, -⟩ := p.pass_eq_ok d reuse h
  rw [hstats]
  rfl

@[simp] theorem session_saveSnapshot : (p.saveSnapshot d).session = p.session := by
  unfold saveSnapshot
  split
  · rfl
  · split <;> rfl

theorem markRestored_workspace :
    (p.markRestored d).session.workspace = p.session.workspace ∧
      (p.markRestored d).files = p.files := by
  unfold markRestored
  split
  · exact ⟨rfl, rfl⟩
  · exact ⟨rfl, rfl⟩

theorem index_markRestored : (p.markRestored d).index = p.index := by
  unfold markRestored
  split <;> rfl

theorem contains_markRestored (e : Dialect) :
    (p.markRestored d).session.restored.contains e = true ↔
      p.session.restored.contains e = true ∨ e = d := by
  unfold markRestored
  split
  · next hd =>
      refine ⟨.inl, ?_⟩
      rintro (he | rfl)
      · exact he
      · exact hd
  · rw [List.contains_cons, Bool.or_eq_true, beq_iff_eq]
    exact or_comm

theorem files_saveSnapshot :
    (p.saveSnapshot d).files = p.files ∨ ∃ folder, p.session.workspace.cacheFolder? = some folder ∧
      Snapshot.save p.files folder d (p.index.registry d).owned = .ok (p.saveSnapshot d).files := by
  unfold saveSnapshot
  split
  · exact .inl rfl
  · next folder hfolder =>
      split
      · next files hsave => exact .inr ⟨folder, hfolder, hsave⟩
      · exact .inl rfl

/-- Settling saves a project that has a new index and the same files and workspace. -/
theorem settle_eq (results : List (Bool × Option Tag)) :
    ∃ m : Project, p.settle d reuse results = m.saveSnapshot d ∧ m.files = p.files ∧
      m.session.workspace = p.session.workspace ∧
        m.index = (p.index.replaceOwned d (passTags results)).1 ∧
          ∀ e, m.session.restored.contains e = true ↔
            p.session.restored.contains e = true ∨ reuse = true ∧ e = d := by
  cases reuse with
  | false =>
      refine ⟨(p.replaceOwned d (passTags results)).1, rfl, rfl, rfl, rfl, fun e => ?_⟩
      simp [replaceOwned, withIndex]
  | true =>
      obtain ⟨hworkspace, hfiles⟩ := markRestored_workspace p d
      refine ⟨((p.markRestored d).replaceOwned d (passTags results)).1, rfl, hfiles, hworkspace,
        ?_, fun e => ?_⟩
      · change ((p.markRestored d).index.replaceOwned d (passTags results)).1 = _
        rw [index_markRestored]
      · change (p.markRestored d).session.restored.contains e = true ↔ _
        rw [contains_markRestored]
        simp

theorem index_settle (results : List (Bool × Option Tag)) :
    (p.settle d reuse results).index = (p.index.replaceOwned d (passTags results)).1 := by
  obtain ⟨m, hsettle, -, -, hindex, -⟩ := settle_eq p d reuse results
  rw [hsettle, ← hindex]
  exact congrArg Session.index (session_saveSnapshot m d)

end Settle

section Results

variable {p : Project} {d : Dialect} {reuse : Bool} {roots : NamespaceRoots}
  {results : List (Bool × Option Tag)}

/-- The tags of a pass have its dialect and entry files. -/
theorem tags_of_results (ht : p.files.WellNamed)
    (hresults : results.Perm (p.passResults d reuse roots)) :
    ∀ tag ∈ passTags results,
      tag.dialect = d ∧ tag.file.isEntry d.entryExtensions = true := by
  intro tag htag
  obtain ⟨result, hmem, hresult⟩ := mem_passTags.mp htag
  obtain ⟨c, hc, hres⟩ := Candidate.exists_of_mem_resolve (hresults.mem_iff.mp hmem)
  obtain ⟨root, -, name, ext, hstands⟩ := Candidate.stands_of_mem_discover ht hc
  obtain ⟨hdialect, hfile, -⟩ := hres.tag hresult
  exact ⟨hdialect, by rw [Path.isEntry_congr (Path.same_iff.mp hfile), hstands.isEntry]⟩

theorem grounded_settle (hp : p.index.Grounded) (ht : p.files.WellNamed)
    (hresults : results.Perm (p.passResults d reuse roots)) :
    (p.settle d reuse results).index.Grounded := by
  rw [index_settle]
  exact hp.replaceOwned (tags_of_results ht hresults)

theorem own_settle (hp : p.index.Sound) (ht : p.files.WellNamed)
    (hresults : results.Perm (p.passResults d reuse roots)) :
    (p.settle d reuse results).index.own d = Holdings.ofTags (passTags results) := by
  rw [index_settle]
  exact hp.own_replaceOwned fun tag htag => (tags_of_results ht hresults tag htag).1

end Results

end Project

namespace Workspace

/-- What a new session holds of a dialect after a pass over some files that compiles every
candidate. -/
def compiled (w : Workspace) (t : FileTree) (d : Dialect) : List Tag :=
  let p : Project := ⟨t, .ofWorkspace w⟩
  ((p.pass d false).1.index.registry d).owned

/-- The same when the namespace roots are searched for anew. -/
def rebuilt (w : Workspace) (t : FileTree) (d : Dialect) : List Tag :=
  w.forgetRoots.compiled t d

end Workspace

namespace Project

section Pass

variable {p q : Project} {d : Dialect} {reuse : Bool}

/-- A pass remembers the namespace roots and changes nothing else of the workspace. -/
theorem PassesTo.workspace (h : p.PassesTo d reuse q) :
    q.session.workspace = p.session.workspace.remember p.files := by
  cases h with
  | @settle roots results hroots hresults =>
      obtain ⟨m, hsettle, -, hworkspace, -⟩ := settle_eq p.remember d reuse results
      rw [hsettle, session_saveSnapshot, hworkspace]
      rfl

/-- A pass leaves the files, or saves the own tags that it leaves. -/
theorem PassesTo.files (h : p.PassesTo d reuse q) :
    q.files = p.files ∨ ∃ folder, p.session.workspace.cacheFolder? = some folder ∧
      Snapshot.save p.files folder d (q.index.registry d).owned = .ok q.files := by
  cases h with
  | @settle roots results hroots hresults =>
      obtain ⟨m, hsettle, hfiles, hworkspace, -⟩ := settle_eq p.remember d reuse results
      have hindex : (m.saveSnapshot d).index = m.index :=
        congrArg Session.index (session_saveSnapshot m d)
      have hsaved := files_saveSnapshot m d
      rw [hfiles, hworkspace] at hsaved
      rw [hsettle, hindex]
      exact hsaved

theorem PassesTo.restored (h : p.PassesTo d reuse q) (e : Dialect) :
    q.session.restored.contains e = true ↔
      p.session.restored.contains e = true ∨ reuse = true ∧ e = d := by
  cases h with
  | @settle roots results hroots hresults =>
      obtain ⟨m, hsettle, -, -, -, hrestored⟩ := settle_eq p.remember d reuse results
      rw [hsettle, session_saveSnapshot]
      exact hrestored e

end Pass

theorem PassesTo.grounded {p q : Project} {d : Dialect} {reuse : Bool} (h : p.PassesTo d reuse q)
    (hp : p.index.Grounded) (ht : p.files.WellNamed) : q.index.Grounded := by
  cases h with
  | settle hroots hresults => exact grounded_settle (p := p.remember) hp ht hresults

/-- Each own tag behind a pass has the file, the time and the namespace of a candidate. -/
theorem PassesTo.candidate_of_owned {p q : Project} {d : Dialect} {reuse : Bool}
    {r : NamespaceRoots} (h : p.PassesTo d reuse q) (hroots : p.namespaceRoots = .ok r)
    (hp : p.index.Grounded) (ht : p.files.WellNamed) :
    ∀ t ∈ (q.index.registry d).owned,
      ∃ c ∈ Candidate.discover p.files p.session.workspace d r,
        t.file.same c.path = true ∧ t.modifiedAt = c.modifiedAt ∧ t.identity.space = c.space := by
  intro t hmem
  have hq := h.grounded hp ht
  have hown := (Registry.mem_owned_iff (hq.sound.ordered d)).mp hmem
  cases h with
  | settle hfound hresults =>
      obtain rfl := Except.ok.inj (hfound.symm.trans hroots)
      have hsettle := own_settle (p := p.remember) hp.sound ht hresults
      have htag := (Holdings.ofTags_mem ((congrFun hsettle t.key).symm.trans hown)).1
      obtain ⟨result, hresult, hsome⟩ := mem_passTags.mp htag
      obtain ⟨c, hc, hres⟩ := Candidate.exists_of_mem_resolve (hresults.mem_iff.mp hresult)
      exact ⟨c, hc, (hres.tag hsome).2⟩

/-- A pass leaves what the files of its candidates give, if the tags that it reuses are honest. -/
theorem PassesTo.own_alike {p q : Project} {d : Dialect} {reuse : Bool} {r : NamespaceRoots}
    {V : Versions} (h : p.PassesTo d reuse q) (hroots : p.namespaceRoots = .ok r)
    (hp : p.index.Grounded) (ht : p.files.WellNamed) (hshows : p.files.Shows V)
    (hdistinct : Candidate.Distinct (Candidate.discover p.files p.session.workspace d r))
    (hhonest : reuse = true → ∀ tag ∈ p.storedTags d, tag.dialect = d → V.Honest d tag) :
    (q.index.own d).Alike (Holdings.ofTags (Candidate.compiledTags p.files d
      (Candidate.discover p.files p.session.workspace d r))) := by
  cases h with
  | settle hfound hresults =>
      obtain rfl := Except.ok.inj (hfound.symm.trans hroots)
      rw [own_settle (p := p.remember) hp.sound ht hresults]
      refine ofTags_passTags ht hshows hdistinct (fun tag htag hdialect => ?_) hresults
      cases reuse with
      | false => cases htag
      | true => exact hhonest rfl tag htag hdialect

end Project

namespace Workspace

variable {w : Workspace} {t : FileTree} {d : Dialect} {r : NamespaceRoots}

/-- The session of such a pass holds the tags of its candidates. -/
theorem compiled_project (ht : t.WellNamed) (hroots : w.namespaceRoots t = .ok r) :
    ∃ ix : Index, ix.Grounded ∧ w.compiled t d = (ix.registry d).owned ∧
      ix.own d =
        Holdings.ofTags (Candidate.compiledTags t d (Candidate.discover t w d r)) := by
  let p : Project := ⟨t, .ofWorkspace w⟩
  have hp : p.index.Grounded := Index.grounded_empty _
  have hknown : p.namespaceRoots = .ok r := hroots
  have hpass := Project.fst_pass p d false hknown
  refine ⟨(p.pass d false).1.index, ?_, rfl, ?_⟩
  · rw [hpass]
    exact Project.grounded_settle (p := p.remember) hp ht (List.Perm.refl _)
  · rw [hpass, Project.own_settle (p := p.remember) hp.sound ht (List.Perm.refl _)]
    exact congrArg Holdings.ofTags (Project.passTags_compiled t d _)

/-- Tags of a grounded index are those of such a pass when they are what its candidates give. -/
theorem alike_compiled_iff (ht : t.WellNamed) (hroots : w.namespaceRoots t = .ok r) {ix : Index}
    (hix : ix.Grounded) :
    AlikeTags (ix.registry d).owned (w.compiled t d) ↔
      (ix.own d).Alike
        (Holdings.ofTags (Candidate.compiledTags t d (Candidate.discover t w d r))) := by
  obtain ⟨fresh, hfresh, howned, hown⟩ := compiled_project (d := d) ht hroots
  rw [howned, Registry.owned_alike_iff (hix.sound.ordered d) (hfresh.sound.ordered d), ← hown]
  rfl

theorem alike_rebuilt_iff (ht : t.WellNamed) (hroots : w.searchRoots t = .ok r) {ix : Index}
    (hix : ix.Grounded) :
    AlikeTags (ix.registry d).owned (w.rebuilt t d) ↔
      (ix.own d).Alike
        (Holdings.ofTags (Candidate.compiledTags t d (Candidate.discover t w d r))) :=
  alike_compiled_iff (w := w.forgetRoots) ht hroots hix

end Workspace

end ComponentAtlas
