import ComponentAtlas.Proofs.Indexing.Sources
import ComponentAtlas.Proofs.Session.Histories

/-!
# What passes and updates leave alone

A pass or an update of one dialect leaves the own tags of the other one, and of the workspace and
its files everything that the search looks at, so that the other dialect finds what it would have
found before. A full index is therefore a pass for each dialect over the same candidates.
-/

namespace ComponentAtlas

/-- A dialect that is not the second of two is the first. -/
theorem Dialect.eq_of_ne {d first second : Dialect} (hne : first ≠ second) (hd : d ≠ second) :
    d = first := by
  cases d <;> cases first <;> cases second <;> first | rfl | contradiction

namespace Project

/-- The folders in which a session saves its snapshots stand. -/
def Housed (p : Project) : Prop :=
  ∀ folder ∈ p.session.workspace.cacheFolder?, ∀ d : Dialect,
    p.files.isFolder ((folder.join "indexes").join d.word) = true

theorem remember_workspace {p : Project} {r : NamespaceRoots} (h : p.namespaceRoots = .ok r) :
    p.session.workspace.remember p.files = { p.session.workspace with known := some r } := by
  have hknown : p.session.workspace.namespaceRoots p.files = .ok r := h
  rw [Workspace.remember, hknown]
  rfl

theorem PassesTo.namespaceRoots {p q : Project} {d : Dialect} {reuse : Bool} {r : NamespaceRoots}
    (h : p.PassesTo d reuse q) (hroots : p.namespaceRoots = .ok r) : q.namespaceRoots = .ok r := by
  rw [Project.namespaceRoots, h.workspace, remember_workspace hroots, Workspace.namespaceRoots]

theorem UpdatesTo.namespaceRoots {p q : Project} {d : Dialect} {changes : List FileChange}
    {r : NamespaceRoots} (h : p.UpdatesTo changes d q) (hroots : p.namespaceRoots = .ok r) :
    q.namespaceRoots = .ok r := by
  have hremembered : p.remember.namespaceRoots = .ok r := (namespaceRoots_remember p).trans hroots
  cases h with
  | pass _ _ hpass => exact hpass.namespaceRoots hremembered
  | batch => exact hremembered

/-- A project that remembers the namespace roots of another one and finds the same in its files. -/
structure Follows (p q : Project) : Prop where
  workspace : q.session.workspace = p.session.workspace.remember p.files
  files : SameSources p.files q.files

namespace Follows

variable {p q : Project} (h : p.Follows q)
include h

theorem namespaceRoots {r : NamespaceRoots} (hroots : p.namespaceRoots = .ok r) :
    q.namespaceRoots = .ok r := by
  rw [Project.namespaceRoots, h.workspace, remember_workspace hroots, Workspace.namespaceRoots]

theorem housed (hp : p.Housed) : q.Housed := by
  intro folder hfolder d
  rw [h.workspace] at hfolder
  rw [h.files.folders.isFolder]
  exact hp folder hfolder d

theorem discover (d : Dialect) (r : NamespaceRoots) :
    Candidate.discover q.files q.session.workspace d r =
      Candidate.discover p.files p.session.workspace d r := by
  rw [h.files.discover, h.workspace]
  rfl

/-- The search for namespace roots in the project that follows finds the same. -/
theorem searchRoots : q.session.workspace.searchRoots q.files =
    p.session.workspace.searchRoots p.files := by
  rw [Workspace.searchRoots, h.files.find, h.workspace]
  rfl

theorem trans {q' : Project} (h' : q.Follows q') {r : NamespaceRoots}
    (hroots : p.namespaceRoots = .ok r) : p.Follows q' := by
  refine ⟨?_, h.files.trans h'.files⟩
  rw [h'.workspace, remember_workspace (h.namespaceRoots hroots), h.workspace,
    remember_workspace hroots]

end Follows

section Steps

variable {p q : Project} {d : Dialect} {reuse : Bool}

theorem saveSnapshot_files {m : Project} (hp : p.Housed)
    (hworkspace : m.session.workspace = p.session.workspace) (hfiles : m.files = p.files)
    (d : Dialect) : SameSources p.files (m.saveSnapshot d).files := by
  unfold saveSnapshot
  rw [hworkspace, hfiles]
  split
  · rw [hfiles]
    exact .refl _
  · next folder hfolder =>
      split
      · next files hsave => exact .of_save (hp folder hfolder d) hsave
      · rw [hfiles]
        exact .refl _

/-- Settling changes the index and saves a snapshot. -/
theorem settle_files (hp : p.Housed) (results : List (Bool × Option Tag)) :
    (p.settle d reuse results).session.workspace = p.session.workspace ∧
      SameSources p.files (p.settle d reuse results).files := by
  obtain ⟨m, hsettle, hfiles, hworkspace, -⟩ := settle_eq p d reuse results
  rw [hsettle, session_saveSnapshot]
  exact ⟨hworkspace, saveSnapshot_files hp hworkspace hfiles d⟩

theorem PassesTo.follows (h : p.PassesTo d reuse q) (hp : p.Housed) : p.Follows q := by
  cases h with
  | settle hroots hresults =>
      have hremembered : p.remember.Housed := hp
      obtain ⟨hworkspace, hfiles⟩ := @settle_files p.remember d reuse hremembered _
      exact ⟨hworkspace, hfiles⟩

theorem UpdatesTo.follows {changes : List FileChange} (h : p.UpdatesTo changes d q)
    (hp : p.Housed) : p.Follows q := by
  cases h with
  | @pass roots _ hroots hasks hpass =>
      have hfirst : p.Follows p.remember := ⟨rfl, .refl _⟩
      exact hfirst.trans (hpass.follows hp) hroots
  | batch hroots hasks houtcomes htags => exact ⟨rfl, .refl _⟩

theorem PassesTo.own_of_ne (h : p.PassesTo d reuse q) (hp : p.index.Grounded)
    (ht : p.files.WellNamed) {e : Dialect} (he : e ≠ d) : q.index.own e = p.index.own e := by
  cases h with
  | settle hroots hresults =>
      rw [index_settle]
      have htags := tags_of_results (p := p.remember) ht hresults
      exact hp.sound.own_replaceOwned_of_ne (fun t hmem => (htags t hmem).1) he

theorem UpdatesTo.own_of_ne {changes : List FileChange} (h : p.UpdatesTo changes d q)
    (hp : p.index.Grounded) (ht : p.files.WellNamed) {e : Dialect} (he : e ≠ d) :
    q.index.own e = p.index.own e := by
  cases h with
  | pass hroots hasks hpass => exact hpass.own_of_ne (p := p.remember) hp ht he
  | batch hroots hasks houtcomes htags =>
      have hentries := Update.entry_of_upsert houtcomes htags
      exact hp.sound.own_commit_of_ne (fun t ht => (hentries t ht).1) he

end Steps

/-- A full pass over each dialect, in any order of the dialects and of the tasks. -/
inductive IndexesTo (p : Project) : Project → Prop where
  | both {d e : Dialect} {m q : Project} (hne : d ≠ e) (hfirst : p.PassesTo d true m)
      (hsecond : m.PassesTo e true q) : IndexesTo p q

section Index

variable {p q : Project} {V : Versions} {folders : Path → Prop} {r : NamespaceRoots}

/-- The tags that the candidates of a dialect give are the same in a project that follows. -/
theorem Follows.compiledTags (h : p.Follows q) (ht : p.files.WellNamed) (d : Dialect) :
    Candidate.compiledTags q.files d (Candidate.discover q.files q.session.workspace d r) =
      Candidate.compiledTags p.files d (Candidate.discover p.files p.session.workspace d r) := by
  rw [h.discover]
  refine List.filterMap_congr fun c hc => ?_
  obtain ⟨root, -, name, ext, hstands⟩ := Candidate.stands_of_mem_discover ht hc
  exact h.files.compile? hstands.isEntry

/-- A full index leaves what the files of its candidates give. -/
theorem IndexesTo.own_alike (h : p.IndexesTo q) (hp : p.Honest V folders) (hhoused : p.Housed)
    (hroots : p.namespaceRoots = .ok r) {d : Dialect}
    (hdistinct : Candidate.Distinct (Candidate.discover p.files p.session.workspace d r)) :
    (q.index.own d).Alike (Holdings.ofTags (Candidate.compiledTags p.files d
      (Candidate.discover p.files p.session.workspace d r))) := by
  cases h with
  | @both first second m _ hne hfirst hsecond =>
      have hm := hp.passesTo hfirst
      have hfollows := hfirst.follows hhoused
      by_cases hd : d = second
      · subst hd
        rw [← hfollows.compiledTags hp.named d]
        refine hsecond.own_alike (hfollows.namespaceRoots hroots) hm.grounded hm.named hm.shows ?_
          fun _ t ht _ => hm.storedTags t ht
        rw [hfollows.discover]
        exact hdistinct
      · obtain rfl : d = first := Dialect.eq_of_ne hne hd
        rw [hsecond.own_of_ne hm.grounded hm.named hd]
        exact hfirst.own_alike hroots hp.grounded hp.named hp.shows hdistinct
          fun _ t ht _ => hp.storedTags t ht

theorem IndexesTo.honest (h : p.IndexesTo q) (hp : p.Honest V folders) : q.Honest V folders := by
  cases h with
  | both hne hfirst hsecond => exact (hp.passesTo hfirst).passesTo hsecond

/-- An operation on both dialects that succeeds in each of them. -/
theorem forBoth_eq {op : Project → Dialect → Attempt Stats} {lwc aura : Stats}
    (hlwc : (op p .lwc).2 = .ok lwc) (haura : (op (op p .lwc).1 .aura).2 = .ok aura) :
    p.forBoth op = ((op (op p .lwc).1 .aura).1, .ok ⟨lwc, aura⟩) := by
  unfold forBoth
  dsimp only
  rw [hlwc]
  dsimp only
  rw [haura]
  rfl

/-- A full index in the order of the dialects is one of them, and succeeds. -/
theorem indexesTo_fullIndex (hhoused : p.Housed) (hroots : p.namespaceRoots = .ok r) :
    p.fullIndex.2.isOk = true ∧ p.IndexesTo p.fullIndex.1 := by
  have hfirst := passesTo_pass p .lwc true hroots
  have hnext := (hfirst.follows hhoused).namespaceRoots hroots
  have hsecond := passesTo_pass _ .aura true hnext
  obtain ⟨lwc, hlwc, -⟩ := pass_eq_ok p .lwc true hroots
  obtain ⟨aura, haura, -⟩ := pass_eq_ok _ .aura true hnext
  have hboth : p.fullIndex = _ := forBoth_eq hlwc haura
  rw [hboth]
  exact ⟨rfl, .both (by decide) hfirst hsecond⟩

end Index

end Project

end ComponentAtlas
