import ComponentAtlas.Proofs.Session.Intake

/-!
# Histories of a site

Sessions work on the same files, each with its own settings, while the files change under them.
Whatever the order of their passes, updates and rebuilds is, each tag that an index holds or a
snapshot keeps is what its file gave at its time. A pass that reuses tags therefore ends with what
a pass that compiles every candidate ends with.
-/

namespace ComponentAtlas

/-- An index whose own tags are what their files gave at their times. -/
def Index.Honest (V : Versions) (ix : Index) : Prop :=
  ∀ (d : Dialect) (key : String) (t : Tag), ix.own d key = some t → V.Honest d t

namespace Index.Honest

variable {V : Versions} {ix : Index} {d : Dialect}

theorem empty (standard : String) : (Index.empty standard).Honest V := by
  intro d key t ht
  cases d <;> cases ht

theorem commit (h : ix.Honest V) (hix : ix.Sound) {changes : List TagChange}
    (hc : ∀ t, .upsert t ∈ changes → V.Honest d t) : (ix.commit d changes).1.Honest V := by
  have hbrings : Registry.Brings d changes := fun t ht => (hc t ht).dialect
  intro e key t ht
  by_cases he : e = d
  · subst he
    rw [hix.own_commit hbrings] at ht
    rcases Holdings.changeAll_eq_some ht with hold | hnew
    · exact h e key t hold
    · exact hc t hnew
  · rw [hix.own_commit_of_ne hbrings he] at ht
    exact h e key t ht

/-- An index that holds what a pass over some files compiles is honest. -/
theorem of_compiled (hix : ix.Grounded) {t : FileTree} (ht : t.WellNamed) (hshows : t.Shows V)
    {w : Workspace} {r : NamespaceRoots} (hroots : w.namespaceRoots t = .ok r)
    (howned : ∀ d, AlikeTags (ix.registry d).owned (w.compiled t d)) : ix.Honest V := by
  intro d key tag htag
  have hrel := (Workspace.alike_compiled_iff ht hroots hix).mp (howned d) key
  rw [htag] at hrel
  obtain ⟨u, hu, halike⟩ := hrel.some_left
  obtain ⟨c, hc, hcompile⟩ := List.mem_filterMap.mp (Holdings.ofTags_mem hu).1
  obtain ⟨root, -, name, ext, hstands⟩ := Candidate.stands_of_mem_discover ht hc
  exact ⟨c, u, by rw [← hstands.compile?_eq_tag? hshows, hcompile], halike⟩

theorem owned (h : ix.Honest V) (hix : ix.Sound) :
    ∀ t ∈ (ix.registry d).owned, V.Honest d t :=
  fun t ht => h d t.key t ((Registry.mem_owned_iff (hix.ordered d)).mp ht)

end Index.Honest

/-- Files of which the snapshots in some folders keep what their files gave at their times. -/
structure FileTree.Honest (V : Versions) (folders : Path → Prop) (t : FileTree) : Prop where
  named : t.WellNamed
  shows : t.Shows V
  snapshots : ∀ folder, folders folder → Snapshot.Honest V t folder

/-- A session with an honest index that keeps its snapshots in one of some folders. -/
structure Session.Honest (V : Versions) (folders : Path → Prop) (s : Session) : Prop where
  grounded : s.index.Grounded
  own : s.index.Honest V
  cache : ∀ folder ∈ s.workspace.cacheFolder?, folders folder

theorem Session.honest_ofWorkspace (V : Versions) {folders : Path → Prop} {w : Workspace}
    (h : ∀ folder ∈ w.cacheFolder?, folders folder) : (Session.ofWorkspace w).Honest V folders :=
  ⟨Index.grounded_empty _, .empty _, h⟩

namespace Project

/-- A project with honest files and an honest session. -/
structure Honest (V : Versions) (folders : Path → Prop) (p : Project) : Prop extends
  toFiles : FileTree.Honest V folders p.files, toSession : Session.Honest V folders p.session

namespace Honest

variable {V : Versions} {folders : Path → Prop} {p q : Project} {d : Dialect} {reuse : Bool}
  (h : p.Honest V folders)
include h

theorem remember : p.remember.Honest V folders :=
  ⟨h.toFiles, ⟨h.grounded, h.own, h.cache⟩⟩

theorem forgetRoots : p.forgetRoots.Honest V folders :=
  ⟨h.toFiles, ⟨h.grounded, h.own, h.cache⟩⟩

/-- What a pass may reuse is honest, in the index as in the snapshot. -/
theorem storedTags : ∀ t ∈ p.storedTags d, V.Honest d t :=
  forall_mem_storedTags (h.own.owned h.grounded.sound) fun folder hfolder =>
    Snapshot.honest_iff.mp (h.snapshots folder (h.cache folder hfolder))

/-- What a call is offered is honest, whether it was stored or is compiled. -/
theorem of_offer {t : Tag} (ht : p.Offers d t) : V.Honest d t := by
  cases ht with
  | stored hstored => exact h.storedTags t hstored
  | @compiled c text hentry hfile hcompile =>
      have htag : c.compile? p.files d = V.tag? d c :=
        Candidate.compile?_eq_tag? h.shows hentry hfile
      exact ⟨c, t, htag.symm.trans hcompile, .refl t⟩

theorem takes (hq : p.Takes d q) : q.Honest V folders := by
  have hown : q.index.Honest V := by
    obtain ⟨changes, hindex, hoffers⟩ := hq.index
    rw [hindex]
    exact h.own.commit h.grounded.sound fun t ht => h.of_offer (hoffers t ht)
  have hgrounded := hq.grounded h.grounded
  have hcache : ∀ folder ∈ q.session.workspace.cacheFolder?, folders folder := by
    rw [hq.cacheFolder]
    exact h.cache
  refine ⟨⟨hq.wellNamed h.named, ?_, fun folder hfolder => ?_⟩, ⟨hgrounded, hown, hcache⟩⟩
  · rcases hq.files with hsame | ⟨folder, -, hsave⟩
    · rw [hsame]
      exact h.shows
    · exact Snapshot.shows_save hsave h.shows
  · have hlists := Snapshot.honest_iff.mp (h.snapshots folder hfolder)
    exact Snapshot.honest_iff.mpr (hq.lists hlists (hown.owned hgrounded.sound))

theorem passesTo (hq : p.PassesTo d reuse q) : q.Honest V folders :=
  h.takes (hq.takes h.named)

theorem updatesTo {changes : List FileChange} (hq : p.UpdatesTo changes d q) :
    q.Honest V folders :=
  h.takes (hq.takes h.named)

end Honest

/-- What the calls of a session do, step by step and with their tasks in any order. -/
inductive Calls : Project → Project → Prop where
  | pass {p q : Project} (d : Dialect) (reuse : Bool) (h : p.PassesTo d reuse q) : Calls p q
  | update {p q : Project} (changes : List FileChange) (d : Dialect)
      (h : p.UpdatesTo changes d q) : Calls p q
  | clear (p : Project) (d : Dialect) : Calls p (p.replaceOwned d []).1
  | remember (p : Project) : Calls p p.remember
  | forgetRoots (p : Project) : Calls p p.forgetRoots

theorem Calls.takes {p q : Project} (h : Calls p q) (ht : p.files.WellNamed) :
    ∃ d, p.Takes d q := by
  cases h with
  | pass d reuse hpass => exact ⟨d, hpass.takes ht⟩
  | update changes d hupdate => exact ⟨d, hupdate.takes ht⟩
  | clear d =>
      refine ⟨d, ⟨_, rfl, fun t ht => ?_⟩, .inl rfl, rfl⟩
      exact nomatch Registry.upsert_mem_replacement ht
  | remember => exact ⟨.lwc, takes_of_index (q := p.remember) rfl rfl rfl⟩
  | forgetRoots => exact ⟨.lwc, takes_of_index (q := p.forgetRoots) rfl rfl rfl⟩

theorem Honest.calls {V : Versions} {folders : Path → Prop} {p q : Project}
    (h : p.Honest V folders) (hq : Calls p q) : q.Honest V folders := by
  obtain ⟨d, htakes⟩ := hq.takes h.named
  exact h.takes htakes

section Runs

open Relation (ReflTransGen)

variable (p : Project) (d : Dialect)

theorem calls_pass (reuse : Bool) : ReflTransGen Calls p (p.pass d reuse).1 := by
  cases hroots : p.namespaceRoots with
  | ok roots => exact .single (.pass d reuse (passesTo_pass p d reuse hroots))
  | error e =>
      have hp : (p.pass d reuse).1 = p.remember := by
        unfold pass
        dsimp only
        rw [namespaceRoots_remember, hroots]
      rw [hp]
      exact .single (.remember p)

theorem calls_update (changes : List FileChange) :
    ReflTransGen Calls p (p.update changes d).1 := by
  cases hroots : p.namespaceRoots with
  | ok roots => exact .single (.update changes d (updatesTo_update hroots))
  | error e =>
      have hp : (p.update changes d).1 = p.remember := by
        unfold update
        dsimp only
        rw [namespaceRoots_remember, hroots]
      rw [hp]
      exact .single (.remember p)

theorem calls_forBoth {op : Project → Dialect → Attempt Stats}
    (hop : ∀ p d, ReflTransGen Calls p (op p d).1) : ReflTransGen Calls p (p.forBoth op).1 := by
  unfold forBoth
  dsimp only
  split
  · exact hop p .lwc
  · exact (hop p .lwc).trans (hop _ .aura)

/-- A full pass over both dialects is a run of calls. -/
theorem calls_fullIndex : ReflTransGen Calls p p.fullIndex.1 :=
  calls_forBoth p fun p d => calls_pass p d true

/-- A rebuild is a run of calls. -/
theorem calls_rebuild : ReflTransGen Calls p p.rebuild.1 :=
  (ReflTransGen.tail (.single (.clear p .lwc)) (.clear _ .aura)).trans
    (calls_forBoth p.clear fun p d => calls_pass p d false)

/-- Bringing in a batch of changes is a run of calls. -/
theorem calls_applyChanges (changes : List FileChange) :
    ReflTransGen Calls p (p.applyChanges changes).1 := by
  have hboth := calls_forBoth p fun q d =>
    calls_update q d (changes.filter fun c => p.session.workspace.isRelevant c.path)
  unfold applyChanges
  dsimp only
  split
  · exact .refl
  · split
    · exact hboth
    · split
      · exact (hboth.tail (.forgetRoots _)).trans (calls_fullIndex _)
      · exact hboth

end Runs

end Project

/-- Each snapshot in a folder is as it was, or what stands in its place is no list of tags. -/
def Snapshot.Kept (folder : Path) (t t' : FileTree) : Prop :=
  ∀ (d : Dialect) (text : String) (time : Nat),
    t'.get? (file folder d).place = some (.file (some text) time) →
      Stored.readTags? text = none ∨
        ∃ old, t.get? (file folder d).place = some (.file (some text) old)

theorem Snapshot.lists_empty (P : Dialect → Tag → Prop) (folder : Path) :
    Lists P .empty folder := by
  intro d text time tags hfile
  rw [FileTree.get?, if_neg (place_file_ne_nil folder d)] at hfile
  cases hfile

theorem Snapshot.Lists.kept {P : Dialect → Tag → Prop} {folder : Path} {t t' : FileTree}
    (h : Lists P t folder) (hkept : Kept folder t t') : Lists P t' folder := by
  intro d text time tags hfile hread tag htag
  rcases hkept d text time hfile with hnone | ⟨old, hold⟩
  · rw [hnone] at hread
    cases hread
  · exact h d text old tags hold hread tag htag

/-- Files, and the sessions that work on them. -/
structure Site where
  files : FileTree
  sessions : List Session

namespace Site

/-- The sites to which histories lead in which the entry files show one content at one time and
nothing but sessions writes lists of tags into the snapshots of some folders. Sessions are opened
with any settings, calls of any session come in any order, and files change in between. -/
inductive Reached (V : Versions) (folders : Path → Prop) : Site → Prop where
  | start {t : FileTree} (hnamed : t.WellNamed) (hshows : t.Shows V)
      (hkept : ∀ folder, folders folder → Snapshot.Kept folder .empty t) : Reached V folders ⟨t, []⟩
  | load {t : FileTree} {sessions : List Session} (w : Workspace)
      (h : Reached V folders ⟨t, sessions⟩) (hcache : ∀ folder ∈ w.cacheFolder?, folders folder) :
      Reached V folders ⟨t, .ofWorkspace w :: sessions⟩
  | call {t : FileTree} {before after : List Session} {s : Session} {q : Project}
      (h : Reached V folders ⟨t, before ++ s :: after⟩) (hcall : Project.Calls ⟨t, s⟩ q) :
      Reached V folders ⟨q.files, before ++ q.session :: after⟩
  | edit {t t' : FileTree} {sessions : List Session} (h : Reached V folders ⟨t, sessions⟩)
      (hnamed : t'.WellNamed) (hshows : t'.Shows V)
      (hkept : ∀ folder, folders folder → Snapshot.Kept folder t t') :
      Reached V folders ⟨t', sessions⟩

/-- Honest files with honest sessions. -/
structure Honest (V : Versions) (folders : Path → Prop) (site : Site) : Prop where
  files : site.files.Honest V folders
  sessions : ∀ s ∈ site.sessions, s.Honest V folders

/-- Every history keeps a site honest. -/
theorem Reached.honest {V : Versions} {folders : Path → Prop} {site : Site}
    (h : site.Reached V folders) : site.Honest V folders := by
  induction h with
  | start hnamed hshows hkept =>
      exact ⟨⟨hnamed, hshows, fun folder hfolder =>
        (Snapshot.lists_empty V.Honest folder).kept (hkept folder hfolder)⟩,
        fun s hs => nomatch hs⟩
  | load w h hcache ih =>
      refine ⟨ih.files, fun s hs => ?_⟩
      rcases List.mem_cons.mp hs with rfl | hold
      · exact Session.honest_ofWorkspace V hcache
      · exact ih.sessions s hold
  | @call t before after s q h hcall ih =>
      have hsession : s.Honest V folders := ih.sessions s (by simp)
      have hq : q.Honest V folders := Project.Honest.calls ⟨ih.files, hsession⟩ hcall
      refine ⟨hq.toFiles, fun s' hs => ?_⟩
      rcases List.mem_append.mp hs with hbefore | hrest
      · exact ih.sessions s' (List.mem_append_left _ hbefore)
      · rcases List.mem_cons.mp hrest with rfl | hafter
        · exact hq.toSession
        · exact ih.sessions s' (List.mem_append_right _ (List.mem_cons_of_mem _ hafter))
  | edit h hnamed hshows hkept ih =>
      exact ⟨⟨hnamed, hshows, fun folder hfolder =>
        (Snapshot.honest_iff.mp (ih.files.snapshots folder hfolder)).kept
          (hkept folder hfolder)⟩, ih.sessions⟩

/-- A run of calls of one session. -/
theorem Reached.calls {V : Versions} {folders : Path → Prop} {t : FileTree}
    {before after : List Session} {s : Session} {q : Project}
    (h : Reached V folders ⟨t, before ++ s :: after⟩)
    (hq : Relation.ReflTransGen Project.Calls ⟨t, s⟩ q) :
    Reached V folders ⟨q.files, before ++ q.session :: after⟩ := by
  induction hq with
  | refl => exact h
  | tail _ hcall ih => exact ih.call hcall

/-- After any history a full pass with known namespace roots succeeds, and in whatever order its
tasks complete it ends with what a pass that compiles every candidate ends with. Each own tag has
the file, the time and the namespace of a candidate, and every snapshot holds tags of its own
dialect only. -/
theorem Reached.cache_transparent {V : Versions} {folders : Path → Prop} {site : Site}
    {s : Session} {d : Dialect} {r : NamespaceRoots} (h : site.Reached V folders)
    (hs : s ∈ site.sessions) (hroots : s.workspace.namespaceRoots site.files = .ok r)
    (hdistinct : Candidate.Distinct (Candidate.discover site.files s.workspace d r)) :
    let p : Project := ⟨site.files, s⟩
    (p.indexOne d).2.isOk = true ∧ p.PassesTo d true (p.indexOne d).1 ∧
      ∀ q, p.PassesTo d true q →
        AlikeTags (q.index.registry d).owned (s.workspace.compiled site.files d) ∧
        (∀ t ∈ (q.index.registry d).owned,
          ∃ c ∈ Candidate.discover site.files s.workspace d r,
            t.file.same c.path = true ∧ t.modifiedAt = c.modifiedAt ∧
              t.identity.space = c.space) ∧
        ∀ folder, folders folder → ∀ e tags, Snapshot.load q.files folder e = .ok tags →
          ∀ t ∈ tags, t.dialect = e := by
  intro p
  have hsite := h.honest
  have hp : p.Honest V folders := ⟨hsite.files, hsite.sessions s hs⟩
  refine ⟨Project.pass_isOk p d true hroots, Project.passesTo_pass p d true hroots,
    fun q hq => ⟨?_, ?_, ?_⟩⟩
  · have hgrounded := hq.grounded hp.grounded hp.named
    refine (Workspace.alike_compiled_iff hp.named hroots hgrounded).mpr ?_
    exact hq.own_alike hroots hp.grounded hp.named hp.shows hdistinct
      fun _ t ht _ => hp.storedTags t ht
  · exact hq.candidate_of_owned hroots hp.grounded hp.named
  · intro folder hfolder e tags hload t ht
    have hafter := hp.passesTo hq
    have hlists := Snapshot.honest_iff.mp (hafter.snapshots folder hfolder)
    exact (hlists.of_load hload t ht).dialect

namespace Sample

/-- A namespace root with the reserved name and one component. -/
def files : FileTree :=
  FileTree.empty.plant ⟨"/w/aura/a/a.cmp"⟩ (.file (some "<aura:component/>") 5)

/-- A workspace that keeps snapshots, with some default namespace. -/
def workspace (space : String) : Workspace :=
  ⟨[⟨"/w"⟩], .unknown, { Settings.standard with defaultNamespace := space }, ⟨[]⟩,
    some ⟨[], [⟨"/w/aura"⟩]⟩⟩

/-- The only folder of snapshots. -/
def folders (folder : Path) : Prop :=
  folder = ⟨"/w/.sfdx"⟩

/-- What a first session with the namespace `c` leaves. -/
def first : Project :=
  (Project.indexOne ⟨files, .ofWorkspace (workspace "c")⟩ .aura).1

/-- The site in which a session with the namespace `d` follows. -/
def site : Site :=
  ⟨first.files, [.ofWorkspace (workspace "d"), first.session]⟩

theorem entries_files : files.entries = [(["w", "aura", "a", "a.cmp"],
    .file (some "<aura:component/>") 5), (["w", "aura", "a"], .folder), (["w", "aura"], .folder),
      (["w"], .folder)] := by
  decide +kernel

theorem reached : site.Reached (fun _ _ => some "<aura:component/>") folders := by
  have hcache : ∀ space, ∀ folder ∈ (workspace space).cacheFolder?, folders folder := by
    intro space folder hfolder
    have hjoin : (⟨"/w"⟩ : Path).join ".sfdx" = ⟨"/w/.sfdx"⟩ := by decide +kernel
    exact (Option.some.inj hfolder).symm.trans hjoin
  have hstart : Reached (fun _ _ => some "<aura:component/>") folders ⟨files, []⟩ := by
    refine .start (by decide +kernel) ?_ ?_
    · refine FileTree.shows_of_entries fun e he text time hfile => ?_
      rw [entries_files] at he
      simp only [List.mem_cons, List.not_mem_nil, or_false] at he
      rcases he with rfl | rfl | rfl | rfl <;> cases hfile
      rfl
    · rintro folder rfl d text time hfile
      have hnone : files.get? (Snapshot.file ⟨"/w/.sfdx"⟩ d).place = none := by
        cases d <;> decide +kernel
      rw [hnone] at hfile
      cases hfile
  have hopened : Reached _ folders ⟨files, [] ++ .ofWorkspace (workspace "c") :: []⟩ :=
    hstart.load _ (hcache "c")
  exact (hopened.calls (Project.calls_pass _ .aura true)).load _ (hcache "d")

end Sample

set_option maxRecDepth 4000 in
/-- A session with another default namespace follows, and the snapshot does no harm. -/
theorem cache_transparent_sample :
    ∃ q, Project.PassesTo ⟨Sample.first.files, .ofWorkspace (Sample.workspace "d")⟩ .aura true q ∧
      AlikeTags (q.index.registry .aura).owned
        ((Sample.workspace "d").compiled Sample.first.files .aura) := by
  have hdistinct : Candidate.Distinct (Candidate.discover Sample.first.files
      (Sample.workspace "d") .aura ⟨[], [⟨"/w/aura"⟩]⟩) := by
    decide +kernel
  obtain ⟨-, hpasses, hcompiled⟩ :=
    Sample.reached.cache_transparent List.mem_cons_self rfl hdistinct
  exact ⟨_, hpasses, (hcompiled _ hpasses).1⟩

end Site

end ComponentAtlas
