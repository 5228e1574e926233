import ComponentAtlas.Proofs.Session.Frames

/-!
# Which new components a batch registers

A batch of changes leads to a new search for namespace roots when an update tells of a component
outside of all known ones. An update that a deleted folder turns into a full pass over the known
roots does not tell, and then the new components below new roots are lost.
-/

namespace ComponentAtlas

namespace NamespaceRoots

variable {r : NamespaceRoots} {d : Dialect}

/-- Whether the folder around the folder of a file is a known root. -/
def knows (r : NamespaceRoots) (d : Dialect) (file : Path) : Bool :=
  file.grandparent?.any (r.contains d)

theorem knows_eq_isSome (file : Path) :
    r.knows d file = (file.grandparent?.filter (r.contains d)).isSome := by
  unfold knows
  cases file.grandparent? with
  | none => rfl
  | some g => cases hcontains : r.contains d g <;> simp [hcontains]

/-- A file of a container is known when a root has the components around its container. -/
theorem knows_iff {file : Path} {steps : List Step} {name inner : String}
    (h : file.components = steps ++ [.name name, .name inner]) :
    r.knows d file = true ↔ ∃ root ∈ r.forDialect d, root.components = steps := by
  obtain ⟨g, hgrand, hg⟩ := Path.components_grandparent? h
  rw [knows, hgrand, Option.any_some, contains, List.any_eq_true]
  refine exists_congr fun root => and_congr_right fun _ => ?_
  rw [Path.same_iff, hg, eq_comm]

end NamespaceRoots

namespace Update

section Told

variable (p : Project) (d : Dialect) (r : NamespaceRoots)

/-- Whether a change is that of an entry file outside of the known roots. -/
def strays (c : FileChange) : Bool :=
  c.path.isEntry d.entryExtensions && c.kind != .deleted && !r.knows d c.path

/-- The candidate of a change of an entry file below a known root. -/
def candidate? (c : FileChange) : Option Candidate :=
  if c.path.isEntry d.entryExtensions ∧ c.kind ≠ .deleted then do
    let root ← c.path.grandparent?.filter (r.contains d)
    let time ← p.files.modifiedAt? c.path
    return ⟨c.path, p.session.workspace.namespaceForRoot root d, time⟩
  else none

theorem outcome?_eq (c : FileChange) : outcome? p d r c =
    (candidate? p d r c).map fun candidate => (c.path, candidate.compile? p.files d) := by
  unfold outcome? candidate?
  split
  · cases c.path.grandparent?.filter (r.contains d) with
    | none => rfl
    | some root => cases p.files.modifiedAt? c.path <;> rfl
  · rfl

variable {p d r} in
/-- The candidate of a change has its file, the namespace of the known root and the time. -/
theorem candidate?_eq_some {e : FileChange} {c : Candidate} (h : candidate? p d r e = some c) :
    e.kind ≠ .deleted ∧ c.path = e.path ∧ p.files.modifiedAt? c.path = some c.modifiedAt ∧
      ∃ g, c.path.grandparent? = some g ∧ r.contains d g = true ∧
        c.space = p.session.workspace.namespaceForRoot g d := by
  unfold candidate? at h
  split at h
  · next hkeep =>
      obtain ⟨g, hg, htime⟩ := Option.bind_eq_some_iff.mp h
      obtain ⟨time, hmodified, hc⟩ := Option.bind_eq_some_iff.mp htime
      obtain rfl := Option.some.inj hc
      obtain ⟨hgrand, hcontains⟩ := Option.filter_eq_some_iff.mp hg
      exact ⟨hkeep.2, rfl, hmodified, g, hgrand, hcontains, rfl⟩
  · cases h

variable {p d r} in
/-- A change under another spelling of a candidate is compiled like it. -/
theorem compile?_candidate? {V : Versions} (hshows : p.files.Shows V) {e : FileChange}
    {told c : Candidate} (h : candidate? p d r e = some told)
    (hfile : p.files.isFile told.path = true) {root : Path} {name ext : String}
    (hstands : c.Stands p.files p.session.workspace d root name ext)
    (hsame : told.path.components = c.path.components) :
    AlikeOption (told.compile? p.files d) (c.compile? p.files d) := by
  obtain ⟨-, -, hmodified, g, hgrand, -, hspace⟩ := candidate?_eq_some h
  obtain ⟨text, time, hentry⟩ := FileTree.isFile_iff.mp hfile
  obtain rfl : time = told.modifiedAt :=
    Option.some.inj ((FileTree.modifiedAt?_of_file hentry).symm.trans hmodified)
  exact hstands.compile?_alike hshows hsame hgrand hspace hentry

theorem unrooted_step (u : Update) (c : FileChange) : (step p d r u c).stats.unrooted =
    u.stats.unrooted + if strays d r c then 1 else 0 := by
  unfold step strays
  rw [NamespaceRoots.knows_eq_isSome]
  by_cases hentry : c.path.isEntry d.entryExtensions = true
  · by_cases hkind : c.kind = .deleted
    · simp [hentry, hkind, delete]
    · cases hroot : c.path.grandparent?.filter (r.contains d) with
      | none => simp [hentry, hkind]
      | some root =>
          cases htime : p.files.modifiedAt? c.path with
          | none => simp [hentry, hkind]
          | some time =>
              cases hcompile : Candidate.compile? p.files d
                  ⟨c.path, p.session.workspace.namespaceForRoot root d, time⟩ <;>
                simp [hentry, hkind, hcompile, compile]
  · simp [hentry]

/-- An update counts the changes that stray. -/
theorem unrooted_foldl (changes : List FileChange) (u : Update) :
    (changes.foldl (step p d r) u).stats.unrooted =
      u.stats.unrooted + changes.countP (strays d r) := by
  induction changes generalizing u with
  | nil => rfl
  | cons c rest ih =>
      rw [List.foldl_cons, ih, unrooted_step, List.countP_cons]
      omega

end Told

end Update

namespace Project

/-- Whether the update of a dialect tells of a component outside of the known roots. -/
def tells (changes : List FileChange) (d : Dialect) (r : NamespaceRoots) : Bool :=
  !asksPass changes d r && changes.any (Update.strays d r)

/-- Whether a batch of changes leads to a new search for namespace roots. -/
def notices (changes : List FileChange) (r : NamespaceRoots) : Bool :=
  tells changes .lwc r || tells changes .aura r

/-- The update of a dialect with known roots succeeds, and tells by its counts. -/
theorem update_eq_ok {p : Project} {r : NamespaceRoots} (h : p.namespaceRoots = .ok r)
    (changes : List FileChange) (d : Dialect) :
    ∃ stats, (p.update changes d).2 = .ok stats ∧
      (0 < stats.unrooted ↔ tells changes d r = true) := by
  have hroots : p.remember.namespaceRoots = .ok r := by rw [namespaceRoots_remember, h]
  unfold update
  dsimp only
  rw [hroots]
  dsimp only
  split
  · next hasks =>
      obtain ⟨stats, hstats, hnone⟩ := pass_eq_ok p.remember d true hroots
      have hasks' : asksPass changes d r = true := hasks
      refine ⟨stats, hstats, ?_⟩
      rw [tells, hasks', hnone]
      simp
  · next hasks =>
      have hasks' : asksPass changes d r = false := eq_false_of_ne_true hasks
      refine ⟨_, rfl, ?_⟩
      rw [tells, hasks', Bool.not_false, Bool.true_and, List.any_eq_true, ← List.countP_pos_iff]
      rw [Update.counts, Update.unrooted_foldl, Nat.zero_add]

/-- The changes of a batch that count. -/
def relevant (p : Project) (changes : List FileChange) : List FileChange :=
  changes.filter fun c => p.session.workspace.isRelevant c.path

/-- What a batch of changes leads to, in any order of the dialects and of the tasks: its updates,
and a full index with roots that are searched for anew if these tell of a component outside of the
known ones. -/
inductive AppliesTo (changes : List FileChange) (p : Project) : Project → Prop where
  | idle (hnone : p.relevant changes = []) : AppliesTo changes p p
  | settled {r : NamespaceRoots} {d e : Dialect} {m q : Project} (hne : d ≠ e)
      (hroots : p.namespaceRoots = .ok r) (hsome : p.relevant changes ≠ [])
      (hfirst : p.UpdatesTo (p.relevant changes) d m)
      (hsecond : m.UpdatesTo (p.relevant changes) e q)
      (hquiet : ¬notices (p.relevant changes) r = true) : AppliesTo changes p q
  | again {r : NamespaceRoots} {d e : Dialect} {m n q : Project} (hne : d ≠ e)
      (hroots : p.namespaceRoots = .ok r) (hsome : p.relevant changes ≠ [])
      (hfirst : p.UpdatesTo (p.relevant changes) d m)
      (hsecond : m.UpdatesTo (p.relevant changes) e n)
      (hnotices : notices (p.relevant changes) r = true) (hindex : n.forgetRoots.IndexesTo q) :
      AppliesTo changes p q

section Order

variable {p : Project} {changes : List FileChange}

theorem applyChanges_of_nil (hnone : p.relevant changes = []) :
    p.applyChanges changes = (p, .ok {}) := by
  have hempty : (changes.filter fun c => p.session.workspace.isRelevant c.path) = [] := hnone
  unfold applyChanges
  dsimp only
  rw [hempty]
  rfl

/-- The updates of a batch in the order of the dialects, and what they lead to. -/
theorem applyChanges_eq {r : NamespaceRoots} (hroots : p.namespaceRoots = .ok r)
    (hsome : p.relevant changes ≠ []) :
    ∃ (m n : Project) (s : Summary), p.update (p.relevant changes) .lwc = (m, .ok s.lwc) ∧
      m.update (p.relevant changes) .aura = (n, .ok s.aura) ∧
        p.UpdatesTo (p.relevant changes) .lwc m ∧ m.UpdatesTo (p.relevant changes) .aura n ∧
          p.applyChanges changes = if notices (p.relevant changes) r = true
            then n.forgetRoots.fullIndex else (n, .ok s) := by
  obtain ⟨lwc, hlwc, htold⟩ := update_eq_ok hroots (p.relevant changes) .lwc
  have hfirst : p.UpdatesTo (p.relevant changes) .lwc _ := updatesTo_update hroots
  have hnext := hfirst.namespaceRoots hroots
  obtain ⟨aura, haura, htold'⟩ := update_eq_ok hnext (p.relevant changes) .aura
  have hsecond : UpdatesTo (p.relevant changes) (p.update (p.relevant changes) .lwc).1 .aura _ :=
    updatesTo_update hnext
  have hboth : p.forBoth (update (p.relevant changes)) = _ := forBoth_eq hlwc haura
  refine ⟨_, _, ⟨lwc, aura⟩, Prod.ext rfl hlwc, Prod.ext rfl haura, hfirst, hsecond, ?_⟩
  have hcount : 0 < Summary.unrooted ⟨lwc, aura⟩ ↔ notices (p.relevant changes) r = true := by
    rw [notices, Bool.or_eq_true, ← htold, ← htold']
    exact Nat.add_pos_iff_pos_or_pos
  have hrelevant : (changes.filter fun c => p.session.workspace.isRelevant c.path) =
      p.relevant changes := rfl
  unfold applyChanges
  dsimp only
  rw [hrelevant, if_neg (by rwa [List.isEmpty_iff]), hboth]
  dsimp only
  simp only [hcount]

/-- Bringing in a batch in the order of its changes is one of the ways, and succeeds when the
namespace roots are known and can be found anew. -/
theorem appliesTo_applyChanges {r rnew : NamespaceRoots} (hhoused : p.Housed)
    (hroots : p.namespaceRoots = .ok r)
    (hnew : p.session.workspace.searchRoots p.files = .ok rnew) (changes : List FileChange) :
    (p.applyChanges changes).2.isOk = true ∧ p.AppliesTo changes (p.applyChanges changes).1 := by
  by_cases hnone : p.relevant changes = []
  · rw [applyChanges_of_nil hnone]
    exact ⟨rfl, .idle hnone⟩
  · obtain ⟨m, n, s, -, -, hfirst, hsecond, happly⟩ := applyChanges_eq hroots hnone
    rw [happly]
    split
    · next hnotices =>
        have hfollows := hfirst.follows hhoused
        have hn := hfollows.trans (hsecond.follows (hfollows.housed hhoused)) hroots
        have hsearch : n.forgetRoots.namespaceRoots = .ok rnew := hn.searchRoots.trans hnew
        obtain ⟨hok, hindex⟩ := indexesTo_fullIndex (p := n.forgetRoots) (hn.housed hhoused) hsearch
        exact ⟨hok, .again (by decide) hroots hnone hfirst hsecond hnotices hindex⟩
    · next hquiet => exact ⟨rfl, .settled (by decide) hroots hnone hfirst hsecond hquiet⟩

end Order

/-- The candidates that a session may come to with a batch: those that the batch tells of, and
those below the known roots and below the roots of a new search. -/
def candidates (p : Project) (changes : List FileChange) (d : Dialect) (r rnew : NamespaceRoots) :
    List Candidate :=
  changes.filterMap (Update.candidate? p d r) ++
    Candidate.discover p.files p.session.workspace d r ++
      Candidate.discover p.files p.session.workspace d rnew

/-- A component below a root of a new search, of which a batch tells that its file is there. -/
structure Told (p : Project) (changes : List FileChange) (d : Dialect) (rnew : NamespaceRoots)
    (c : Candidate) (u : Tag) : Prop where
  found : c ∈ Candidate.discover p.files p.session.workspace d rnew
  compiles : c.compile? p.files d = some u
  change : ∃ e ∈ changes, e.kind ≠ .deleted ∧ e.path.same c.path = true ∧
    p.files.isFile e.path = true

section Register

variable {p q : Project} {changes : List FileChange} {d : Dialect} {r rnew : NamespaceRoots}
  {V : Versions} {folders : Path → Prop} {c : Candidate} {u : Tag}

/-- A full pass over the known roots registers a component when its root is one of them. -/
theorem PassesTo.registers_iff (h : p.PassesTo d true q) (hp : p.Honest V folders)
    (hroots : p.namespaceRoots = .ok r)
    (hdistinct : Candidate.Distinct (Candidate.discover p.files p.session.workspace d r))
    (hc : c ∈ Candidate.discover p.files p.session.workspace d rnew)
    (hu : c.compile? p.files d = some u) :
    (∃ t, q.index.own d u.key = some t ∧ t.Alike u) ↔
      r.knows d c.path = true := by
  obtain ⟨root, -, hmem⟩ := List.mem_flatMap.mp hc
  obtain ⟨name, ext, hstands⟩ := Candidate.stands_of_mem_inRoot hp.named hmem
  have hown := h.own_alike hroots hp.grounded hp.named hp.shows hdistinct
    fun _ t ht _ => hp.storedTags t ht
  constructor
  · rintro ⟨t, ht, halike⟩
    have hrel := hown u.key
    rw [ht] at hrel
    obtain ⟨v, hv, htv⟩ := hrel.some_left
    obtain ⟨c', hc', hcompile⟩ := List.mem_filterMap.mp (Holdings.ofTags_mem hv).1
    obtain ⟨root', hroot', name', ext', hstands'⟩ :=
      Candidate.stands_of_mem_discover hp.named hc'
    have hsame : c.path.components = c'.path.components := by
      rw [← (Candidate.compile?_eq_some hu).2.1, ← (Candidate.compile?_eq_some hcompile).2.1,
        ← halike.components, htv.components]
    exact (NamespaceRoots.knows_iff (hsame.trans hstands'.components)).mpr ⟨root', hroot', rfl⟩
  · intro hknows
    obtain ⟨root', hroot', hsame⟩ := (NamespaceRoots.knows_iff hstands.components).mp hknows
    obtain ⟨c', hmem', hpath, hspace, htime⟩ :=
      Candidate.inRoot_congr hp.named hsame.symm hmem
    obtain ⟨name', ext', hstands'⟩ := Candidate.stands_of_mem_inRoot hp.named hmem'
    have hrel : AlikeOption (c'.compile? p.files d) (c.compile? p.files d) := by
      rw [hstands'.compile?_eq_tag? hp.shows, hstands.compile?_eq_tag? hp.shows]
      exact Versions.tag?_alike hpath hspace htime
    rw [hu] at hrel
    obtain ⟨u', hu', halike⟩ := hrel.some_right
    have hcompiled : u' ∈ Candidate.compiledTags p.files d
        (Candidate.discover p.files p.session.workspace d r) :=
      List.mem_filterMap.mpr ⟨c', List.mem_flatMap.mpr ⟨root', hroot', hmem'⟩, hu'⟩
    obtain ⟨t, ht, htu⟩ :=
      hown.of_mem (Candidate.compiledTags_keys hp.named hp.shows hdistinct) hcompiled
    exact ⟨t, halike.key ▸ ht, htu.trans halike⟩

/-- When nothing strays, a batch tells of components below known roots only. -/
theorem Told.knows (htold : p.Told changes d rnew c u) (ht : p.files.WellNamed)
    (hquiet : ∀ e ∈ changes, ¬Update.strays d r e = true) : r.knows d c.path = true := by
  obtain ⟨root, -, name, ext, hstands⟩ := Candidate.stands_of_mem_discover ht htold.found
  obtain ⟨e, he, hkind, hsame, -⟩ := htold.change
  have hsteps := Path.same_iff.mp hsame
  have hentry : e.path.isEntry d.entryExtensions = true := by
    rw [Path.isEntry_congr hsteps, hstands.isEntry]
  have hknows : r.knows d e.path = true := by
    by_contra hunknown
    refine hquiet e he ?_
    rw [Update.strays, hentry, eq_false_of_ne_true hunknown]
    simpa using hkind
  rw [NamespaceRoots.knows_iff hstands.components]
  exact (NamespaceRoots.knows_iff (hsteps.trans hstands.components)).mp hknows

/-- A batch compiles the file of a component that it tells of, if its root is known. -/
theorem Told.candidate? (htold : p.Told changes d rnew c u) (ht : p.files.WellNamed)
    (hknows : r.knows d c.path = true) :
    ∃ e ∈ changes, ∃ told, Update.candidate? p d r e = some told ∧
      told.path.components = c.path.components ∧ p.files.isFile told.path = true := by
  obtain ⟨root, -, name, ext, hstands⟩ := Candidate.stands_of_mem_discover ht htold.found
  obtain ⟨e, he, hkind, hsame, hfile⟩ := htold.change
  have hsteps := Path.same_iff.mp hsame
  have hentry : e.path.isEntry d.entryExtensions = true := by
    rw [Path.isEntry_congr hsteps, hstands.isEntry]
  have hgrand : r.knows d e.path = true := by
    rw [NamespaceRoots.knows_iff (hsteps.trans hstands.components)]
    exact (NamespaceRoots.knows_iff hstands.components).mp hknows
  rw [NamespaceRoots.knows_eq_isSome, Option.isSome_iff_exists] at hgrand
  obtain ⟨g, hg⟩ := hgrand
  obtain ⟨text, time, hstanding⟩ := FileTree.isFile_iff.mp hfile
  refine ⟨e, he, ⟨e.path, p.session.workspace.namespaceForRoot g d, time⟩, ?_, hsteps, hfile⟩
  rw [Update.candidate?, if_pos ⟨hentry, hkind⟩, hg, FileTree.modifiedAt?_of_file hstanding]
  rfl

/-- A batch registers each component that it tells of and of which the root is known. -/
theorem Told.registers (htold : p.Told changes d rnew c u) (hp : p.Honest V folders)
    (hdistinct : Candidate.Distinct (p.candidates changes d r rnew))
    (hknows : r.knows d c.path = true)
    {outcomes : List (Path × Option Tag)} {tags : List Tag}
    (houtcomes : outcomes.Perm (changes.filterMap (Update.outcome? p d r)))
    (htags : tags.Perm (Update.lastTags outcomes)) (hown : Holdings) :
    ∃ t, hown.changeAll (Update.batchOf p d changes outcomes tags) u.key = some t ∧ t.Alike u := by
  obtain ⟨root, -, name, ext, hstands⟩ := Candidate.stands_of_mem_discover hp.named htold.found
  obtain ⟨e, he, told, hcandidate, hsame, hfile⟩ := htold.candidate? hp.named hknows
  have hrel := Update.compile?_candidate? hp.shows hcandidate hfile hstands hsame
  rw [htold.compiles] at hrel
  obtain ⟨v, hv, hvu⟩ := hrel.some_right
  have houtcome : (e.path, some v) ∈ outcomes := by
    refine houtcomes.mem_iff.mpr (List.mem_filterMap.mpr ⟨e, he, ?_⟩)
    rw [Update.outcome?_eq, hcandidate, Option.map_some, hv]
  obtain ⟨last, hlast, hkey⟩ := Update.exists_lastTag houtcome rfl
  rw [Update.batchOf, Holdings.changeAll_append, Holdings.changeAll_upsert]
  cases hfind : tags.reverse.find? fun t => t.key == u.key with
  | none =>
      have hnot := List.find?_eq_none.mp hfind last
        (List.mem_reverse.mpr (htags.mem_iff.mpr hlast))
      exact absurd (beq_iff_eq.mpr (hkey.trans hvu.key)) hnot
  | some t =>
      refine ⟨t, rfl, ?_⟩
      have htkey : t.key = u.key := by simpa using List.find?_some hfind
      have hmem : t ∈ Update.lastTags outcomes :=
        htags.mem_iff.mp (List.mem_reverse.mp (List.mem_of_find?_eq_some hfind))
      obtain ⟨⟨path, _⟩, ho, rfl⟩ := Update.mem_lastTags hmem
      obtain ⟨e', he', ho'⟩ := List.mem_filterMap.mp (houtcomes.mem_iff.mp ho)
      rw [Update.outcome?_eq] at ho'
      obtain ⟨told', htold', hpair⟩ := Option.map_eq_some_iff.mp ho'
      have hcompile : told'.compile? p.files d = some t := (Prod.mk.inj hpair).2
      have hsame' : told'.path.same c.path = true := by
        refine hdistinct told' ?_ c (List.mem_append_right _ htold.found) ?_
        · exact List.mem_append_left _ (List.mem_append_left _
            (List.mem_filterMap.mpr ⟨e', he', htold'⟩))
        · rw [← (Candidate.compile?_eq_some hcompile).2.2.2.2,
            ← (Candidate.compile?_eq_some htold.compiles).2.2.2.2, htkey]
      have hrel' := Update.compile?_candidate? hp.shows htold'
        (Candidate.isFile_of_compile? hcompile) hstands (Path.same_iff.mp hsame')
      rw [hcompile, htold.compiles] at hrel'
      cases hrel' with
      | some halike => exact halike

/-- An update that tells of nothing outside of the known roots registers a component when its
root is one of them. -/
theorem UpdatesTo.registers_iff (h : p.UpdatesTo changes d q) (hp : p.Honest V folders)
    (hroots : p.namespaceRoots = .ok r)
    (hdistinct : Candidate.Distinct (p.candidates changes d r rnew))
    (htold : p.Told changes d rnew c u) (hquiet : ¬tells changes d r = true) :
    (∃ t, q.index.own d u.key = some t ∧ t.Alike u) ↔
      r.knows d c.path = true := by
  cases h with
  | pass hfound hasks hpass =>
      obtain rfl := Except.ok.inj (hroots.symm.trans hfound)
      have hknown := (namespaceRoots_remember p).trans hroots
      refine hpass.registers_iff hp.remember hknown ?_ htold.found htold.compiles
      intro a ha b hb
      exact hdistinct a (List.mem_append_left _ (List.mem_append_right _ ha))
        b (List.mem_append_left _ (List.mem_append_right _ hb))
  | batch hfound hasks houtcomes htags =>
      obtain rfl := Except.ok.inj (hroots.symm.trans hfound)
      have hknows : r.knows d c.path = true := by
        refine htold.knows hp.named fun e he hstrays => hquiet ?_
        rw [tells, eq_false_of_ne_true hasks]
        exact List.any_eq_true.mpr ⟨e, he, hstrays⟩
      have hentries := Update.entry_of_upsert houtcomes htags
      have hcommit : (p.index.commit d _).1.own d = (p.index.own d).changeAll _ :=
        hp.grounded.sound.own_commit fun t ht => (hentries t ht).1
      have hregisters := htold.registers hp hdistinct hknows houtcomes htags (p.index.own d)
      rw [← hcommit] at hregisters
      exact iff_of_true hregisters hknows

/-- A project that follows comes to the same candidates. -/
theorem Follows.candidates (h : p.Follows q) :
    q.candidates changes d r rnew = p.candidates changes d r rnew := by
  have hcandidate : Update.candidate? q d r = Update.candidate? p d r := by
    funext e
    unfold Update.candidate?
    by_cases hentry : e.path.isEntry d.entryExtensions = true
    · rw [h.files.modifiedAt?_entry hentry, h.workspace]
      rfl
    · rw [if_neg fun hkeep => hentry hkeep.1, if_neg fun hkeep => hentry hkeep.1]
  rw [Project.candidates, Project.candidates, hcandidate, h.discover, h.discover]

/-- A batch tells a project that follows of the same components. -/
theorem Told.follows (htold : p.Told changes d rnew c u) (h : p.Follows q)
    (ht : p.files.WellNamed) : q.Told changes d rnew c u := by
  obtain ⟨root, -, name, ext, hstands⟩ := Candidate.stands_of_mem_discover ht htold.found
  obtain ⟨e, he, hkind, hsame, hfile⟩ := htold.change
  have hentry : e.path.isEntry d.entryExtensions = true := by
    rw [Path.isEntry_congr (Path.same_iff.mp hsame), hstands.isEntry]
  refine ⟨?_, ?_, e, he, hkind, hsame, ?_⟩
  · rw [h.discover]
    exact htold.found
  · rw [h.files.compile? hstands.isEntry]
    exact htold.compiles
  · rw [h.files.isFile_entry hentry]
    exact hfile

theorem AppliesTo.honest (h : p.AppliesTo changes q) (hp : p.Honest V folders) :
    q.Honest V folders := by
  cases h with
  | idle hnone => exact hp
  | settled hne hfound hsome hfirst hsecond hquiet => exact (hp.updatesTo hfirst).updatesTo hsecond
  | again hne hfound hsome hfirst hsecond hnotices hindex =>
      exact hindex.honest ((hp.updatesTo hfirst).updatesTo hsecond).forgetRoots

theorem tells_of_notices (d : Dialect) (h : ¬notices changes r = true) :
    ¬tells changes d r = true := by
  rw [notices, Bool.or_eq_true, not_or] at h
  cases d with
  | lwc => exact h.1
  | aura => exact h.2

/-- A component that a batch tells of is registered when the batch leads to a new search, or when
the root of the component is known. -/
theorem AppliesTo.registers_iff (h : p.AppliesTo changes q) (hp : p.Honest V folders)
    (hhoused : p.Housed) (hroots : p.namespaceRoots = .ok r)
    (hnew : p.session.workspace.searchRoots p.files = .ok rnew)
    (hrelevant : p.relevant changes = changes)
    (hdistinct : Candidate.Distinct (p.candidates changes d r rnew))
    (htold : p.Told changes d rnew c u) :
    (∃ t, q.index.own d u.key = some t ∧ t.Alike u) ↔
      notices changes r = true ∨ r.knows d c.path = true := by
  cases h with
  | idle hnone =>
      obtain ⟨e, he, -⟩ := htold.change
      rw [← hrelevant, hnone] at he
      cases he
  | @settled _ first second m _ hne hfound hsome hfirst hsecond hquiet =>
      obtain rfl := Except.ok.inj (hroots.symm.trans hfound)
      rw [hrelevant] at hfirst hsecond hquiet
      have hm := hp.updatesTo hfirst
      have hfollows := hfirst.follows hhoused
      rw [or_iff_right hquiet]
      by_cases hd : d = second
      · subst hd
        refine hsecond.registers_iff hm (hfollows.namespaceRoots hroots) ?_
          (htold.follows hfollows hp.named) (tells_of_notices d hquiet)
        rw [hfollows.candidates]
        exact hdistinct
      · obtain rfl : d = first := Dialect.eq_of_ne hne hd
        rw [hsecond.own_of_ne hm.grounded hm.named hd]
        exact hfirst.registers_iff hp hroots hdistinct htold (tells_of_notices d hquiet)
  | @again _ first second m n _ hne hfound hsome hfirst hsecond hnotices hindex =>
      obtain rfl := Except.ok.inj (hroots.symm.trans hfound)
      rw [hrelevant] at hfirst hsecond hnotices
      refine iff_of_true ?_ (.inl hnotices)
      have hm := hp.updatesTo hfirst
      have hfollows := hfirst.follows hhoused
      have hn : p.Follows n := hfollows.trans (hsecond.follows (hfollows.housed hhoused)) hroots
      have hsearch : n.forgetRoots.namespaceRoots = .ok rnew := hn.searchRoots.trans hnew
      have hfound : Candidate.Distinct
          (Candidate.discover p.files p.session.workspace d rnew) := fun a ha b hb =>
        hdistinct a (List.mem_append_right _ ha) b (List.mem_append_right _ hb)
      have hown : (q.index.own d).Alike (Holdings.ofTags (Candidate.compiledTags n.files d
          (Candidate.discover n.files n.session.workspace d rnew))) :=
        hindex.own_alike (hm.updatesTo hsecond).forgetRoots (hn.housed hhoused) hsearch
          (hn.discover d rnew ▸ hfound)
      rw [hn.compiledTags hp.named] at hown
      exact hown.of_mem (Candidate.compiledTags_keys hp.named hp.shows hfound)
        (List.mem_filterMap.mpr ⟨c, htold.found, htold.compiles⟩)

/-- A component that a new session registers is a candidate below a root of a new search. -/
theorem exists_of_fresh (hp : p.Honest V folders) (hhoused : p.Housed)
    (hload : Workspace.load p.files p.session.workspace.roots = p.session.workspace.forgetRoots)
    (hnew : p.session.workspace.searchRoots p.files = .ok rnew)
    (hdistinct : Candidate.Distinct (Candidate.discover p.files p.session.workspace d rnew))
    (hu : u ∈ (p.reload.fullIndex.1.index.registry d).owned) :
    ∃ c ∈ Candidate.discover p.files p.session.workspace d rnew, ∃ v,
      c.compile? p.files d = some v ∧ u.Alike v := by
  have hreload : p.reload = ⟨p.files, .ofWorkspace p.session.workspace.forgetRoots⟩ := by
    rw [reload, Session.load, hload]
  rw [hreload] at hu
  let fresh : Project := ⟨p.files, .ofWorkspace p.session.workspace.forgetRoots⟩
  have hhonest : fresh.Honest V folders := ⟨hp.toFiles, Session.honest_ofWorkspace V hp.cache⟩
  obtain ⟨-, hindex⟩ := indexesTo_fullIndex (p := fresh) hhoused hnew
  have hown := hindex.own_alike hhonest hhoused hnew hdistinct
  have hsound := (hindex.honest hhonest).grounded.sound
  have hheld : fresh.fullIndex.1.index.own d u.key = some u :=
    (Registry.mem_owned_iff (hsound.ordered d)).mp hu
  have hrel := hown u.key
  rw [hheld] at hrel
  obtain ⟨v, hv, halike⟩ := hrel.some_left
  obtain ⟨c, hc, hcompile⟩ := List.mem_filterMap.mp (Holdings.ofTags_mem hv).1
  exact ⟨c, hc, v, hcompile, halike⟩

end Register

/-- A batch succeeds, and in whatever order the dialects and the tasks complete it registers a
component that a new session would register exactly when it leads to a new search for namespace
roots or the root of the component is known. The session is up to date with the settings, its
tags and snapshots are what the files gave at their times, and the batch tells that the file of the
component is there. -/
theorem applyChanges_registers_iff {p : Project} {changes : List FileChange} {d : Dialect}
    {r rnew : NamespaceRoots} {V : Versions} {folders : Path → Prop} {u : Tag} {e : FileChange}
    (hp : p.Honest V folders) (hhoused : p.Housed) (hroots : p.namespaceRoots = .ok r)
    (hload : Workspace.load p.files p.session.workspace.roots = p.session.workspace.forgetRoots)
    (hnew : p.session.workspace.searchRoots p.files = .ok rnew)
    (hrelevant : ∀ c ∈ changes, p.session.workspace.isRelevant c.path = true)
    (hdistinct : Candidate.Distinct (p.candidates changes d r rnew))
    (hu : u ∈ (p.reload.fullIndex.1.index.registry d).owned) (he : e ∈ changes)
    (hkind : e.kind ≠ .deleted) (hpath : e.path.same u.file = true)
    (hfile : p.files.isFile e.path = true) :
    (p.applyChanges changes).2.isOk = true ∧ p.AppliesTo changes (p.applyChanges changes).1 ∧
      ∀ q, p.AppliesTo changes q →
        ((∃ t ∈ (q.index.registry d).owned, t.Alike u) ↔
          notices changes r = true ∨ r.knows d u.file = true) := by
  obtain ⟨hok, happlies⟩ := appliesTo_applyChanges hhoused hroots hnew changes
  refine ⟨hok, happlies, fun q hq => ?_⟩
  obtain ⟨c, hc, v, hv, halike⟩ := exists_of_fresh hp hhoused hload hnew
    (fun a ha b hb => hdistinct a (List.mem_append_right _ ha) b (List.mem_append_right _ hb)) hu
  have hsame : u.file.components = c.path.components := by
    rw [halike.components, (Candidate.compile?_eq_some hv).2.1]
  have hchange : e.path.same c.path = true :=
    Path.same_iff.mpr ((Path.same_iff.mp hpath).trans hsame)
  have htold : p.Told changes d rnew c v := ⟨hc, hv, e, he, hkind, hchange, hfile⟩
  have hregisters := hq.registers_iff hp hhoused hroots hnew (List.filter_eq_self.mpr hrelevant)
    hdistinct htold
  obtain ⟨root, -, name, ext, hstands⟩ := Candidate.stands_of_mem_discover hp.named hc
  have hknows : r.knows d u.file = true ↔ r.knows d c.path = true := by
    rw [NamespaceRoots.knows_iff hstands.components,
      NamespaceRoots.knows_iff (hsame.trans hstands.components)]
  have hordered := (hq.honest hp).grounded.sound.ordered d
  rw [hknows, ← hregisters]
  constructor
  · rintro ⟨t, ht, htu⟩
    have htv := htu.trans halike
    exact ⟨t, htv.key ▸ (Registry.mem_owned_iff hordered).mp ht, htv⟩
  · rintro ⟨t, ht, htv⟩
    refine ⟨t, (Registry.mem_owned_iff hordered).mpr ?_, htv.trans halike.symm⟩
    rw [htv.key]
    exact ht

namespace Renamed

/-- The folders of the snapshots. -/
def housing : FileTree :=
  (FileTree.empty.plant ⟨"/c/.sfdx/indexes/aura"⟩ .folder).plant ⟨"/c/.sfdx/indexes/lwc"⟩ .folder

/-- A namespace root with one component. -/
def old : FileTree :=
  housing.plant ⟨"/w/o/a/a.cmp"⟩ (.file (some "<aura:component/>") 5)

/-- The same root under another name. -/
def new : FileTree :=
  housing.plant ⟨"/w/n/a/a.cmp"⟩ (.file (some "<aura:component/>") 5)

def roots : NamespaceRoots :=
  ⟨[], [⟨"/w/o"⟩]⟩

/-- The workspace, with the namespace roots of the old files. -/
def workspace : Workspace :=
  { Workspace.load new [⟨"/c"⟩, ⟨"/w"⟩] with known := some roots }

/-- The tag of the component in a namespace root. -/
def tag (space : String) (file : Path) : Tag :=
  ⟨⟨space, "a", .colon⟩, .aura, file, 5, none, some ⟨0, 0, 0, 17⟩, [], []⟩

/-- A session that has indexed the old files and now sees the new ones. -/
def project : Project :=
  ⟨new, workspace, ⟨"lightning", .empty .lwc, ⟨.aura, [tag "o" ⟨"/w/o/a/a.cmp"⟩], ["o"]⟩⟩,
    [.lwc, .aura]⟩

def changes : List FileChange :=
  [⟨⟨"/w/o"⟩, .deleted⟩, ⟨⟨"/w/n/a/a.cmp"⟩, .created⟩]

/-- The only folder of snapshots. -/
def folders (folder : Path) : Prop :=
  folder = ⟨"/c/.sfdx"⟩

set_option maxRecDepth 4000 in
theorem cacheFolder : workspace.cacheFolder? = some ⟨"/c/.sfdx"⟩ := by
  decide +kernel

theorem shows_of {t : FileTree} (e : List String)
    (h : t.entries = (e, .file (some "<aura:component/>") 5) ::
      t.entries.tail) (hrest : ∀ e ∈ t.entries.tail, e.2 = .folder) :
    t.Shows fun _ _ => some "<aura:component/>" := by
  refine FileTree.shows_of_entries fun e he text time hfile => ?_
  rw [h] at he
  rcases List.mem_cons.mp he with rfl | htail
  · cases hfile
    rfl
  · rw [hrest e htail] at hfile
    cases hfile

set_option maxRecDepth 4000 in
/-- The session is in sync with the old files. -/
theorem honest : project.Honest (fun _ _ => some "<aura:component/>") folders := by
  have hgrounded : project.index.Grounded := by
    refine ⟨⟨rfl, rfl, .nil, List.pairwise_singleton _ _, rfl, rfl, fun _ h => nomatch h⟩,
      fun d t ht => ?_⟩
    cases d with
    | lwc => cases ht
    | aura =>
        obtain rfl := List.mem_singleton.mp ht
        decide +kernel
  have hsync : ∀ d, (project.index.registry d).owned = workspace.compiled old d := by
    intro d
    cases d <;> decide +kernel
  have hown : project.index.Honest fun _ _ => some "<aura:component/>" := by
    refine .of_compiled hgrounded (t := old) (by decide +kernel)
      (shows_of ["w", "o", "a", "a.cmp"] (by decide +kernel) (by decide +kernel))
      (w := workspace) (r := roots) rfl fun d => ?_
    rw [hsync]
    exact AlikeTags.refl _
  refine ⟨⟨by decide +kernel, shows_of ["w", "n", "a", "a.cmp"] (by decide +kernel)
    (by decide +kernel), ?_⟩, ⟨hgrounded, hown, ?_⟩⟩
  · rintro folder rfl d text time tags hfile
    have hnone : new.get? (Snapshot.file ⟨"/c/.sfdx"⟩ d).place = none := by
      cases d <;> decide +kernel
    rw [show project.files = new from rfl, hnone] at hfile
    cases hfile
  · intro folder hfolder
    rw [show project.session.workspace = workspace from rfl, cacheFolder] at hfolder
    exact (Option.some.inj hfolder).symm

end Renamed

set_option maxRecDepth 4000 in
/-- The component of a namespace root that is renamed is lost, although a new session would
register it. -/
theorem applyChanges_loses_renamed :
    Renamed.tag "n" ⟨"/w/n/a/a.cmp"⟩ ∈
        (Renamed.project.reload.fullIndex.1.index.registry .aura).owned ∧
      ∀ q, Renamed.project.AppliesTo Renamed.changes q →
        ¬∃ t ∈ (q.index.registry .aura).owned, t.Alike (Renamed.tag "n" ⟨"/w/n/a/a.cmp"⟩) := by
  have hhoused : Renamed.project.Housed := by
    intro folder hfolder d
    rw [show Renamed.project.session.workspace = Renamed.workspace from rfl,
      Renamed.cacheFolder] at hfolder
    obtain rfl := Option.some.inj hfolder
    cases d <;> decide +kernel
  have hfresh : Renamed.tag "n" ⟨"/w/n/a/a.cmp"⟩ ∈
      (Renamed.project.reload.fullIndex.1.index.registry .aura).owned := by
    decide +kernel
  have hnew : Renamed.workspace.searchRoots Renamed.new = .ok ⟨[], [⟨"/w/n"⟩]⟩ := by
    decide +kernel
  have hrelevant : ∀ c ∈ Renamed.changes,
      Renamed.project.session.workspace.isRelevant c.path = true := by
    decide +kernel
  have hdistinct : Candidate.Distinct (Renamed.project.candidates Renamed.changes .aura
      Renamed.roots ⟨[], [⟨"/w/n"⟩]⟩) := by
    decide +kernel
  obtain ⟨-, -, hregisters⟩ := applyChanges_registers_iff Renamed.honest hhoused rfl rfl hnew
    hrelevant hdistinct hfresh (List.mem_cons_of_mem _ List.mem_cons_self) (by decide)
    (Path.same_refl _) (by decide +kernel)
  refine ⟨hfresh, fun q hq hregistered => ?_⟩
  have hquiet : ¬(notices Renamed.changes Renamed.roots = true ∨
      Renamed.roots.knows .aura ⟨"/w/n/a/a.cmp"⟩ = true) := by
    decide +kernel
  exact hquiet ((hregisters q hq).mp hregistered)

end Project

end ComponentAtlas
