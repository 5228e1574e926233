import ComponentAtlas.Proofs.Indexing.Locations
import ComponentAtlas.Proofs.Session.Histories

/-!
# What registries contain

Sessions work on files that change in any way, at any time, while only sessions write lists of tags
into their snapshots. A property of compiled tags that mirrors inherit then holds of every tag of
every registry. So each tag has the mark of its registry, a name, and its members under different
names.
-/

namespace ComponentAtlas

/-- A property that every tag has which is compiled from an entry file, and that mirrors inherit. -/
structure Inherent (P : Dialect → Tag → Prop) : Prop where
  compiled : ∀ {t : FileTree} {d : Dialect} {c : Candidate} {tag : Tag},
    c.path.isEntry d.entryExtensions = true → c.compile? t d = some tag → P d tag
  mirror : ∀ tag, P .lwc tag → P .aura tag.mirror

section Steps

variable {P : Dialect → Tag → Prop} (hP : Inherent P) {p q : Project} {d : Dialect}
include hP

/-- A call keeps such a property, if the snapshots that it may read have it. -/
theorem Project.Takes.each (h : p.Takes d q) (hp : p.index.Grounded) (heach : p.index.Each P)
    (hlists : ∀ folder, p.session.workspace.cacheFolder? = some folder →
      Snapshot.Lists P p.files folder) : q.index.Each P := by
  have hstored : ∀ tag ∈ p.storedTags d, P d tag :=
    forall_mem_storedTags (fun tag htag => heach d tag (List.mem_filter.mp htag).1) hlists
  obtain ⟨changes, hindex, hoffers⟩ := h.index
  rw [hindex]
  refine heach.commit hP.mirror hp.sound.aura_dialect fun tag htag => ?_
  cases hoffers tag htag with
  | stored hmem => exact hstored tag hmem
  | compiled hentry _ hcompile => exact hP.compiled hentry hcompile

end Steps

namespace Site

/-- The sites to which histories lead in which nothing but sessions writes lists of tags into the
snapshots of some folders. Sessions are opened with any settings, calls of any session come in any
order, and files change in between, also without a new time. -/
inductive Filled (folders : Path → Prop) : Site → Prop where
  | start {t : FileTree} (hnamed : t.WellNamed)
      (hkept : ∀ folder, folders folder → Snapshot.Kept folder .empty t) : Filled folders ⟨t, []⟩
  | load {t : FileTree} {sessions : List Session} (w : Workspace)
      (h : Filled folders ⟨t, sessions⟩) (hcache : ∀ folder ∈ w.cacheFolder?, folders folder) :
      Filled folders ⟨t, .ofWorkspace w :: sessions⟩
  | call {t : FileTree} {before after : List Session} {s : Session} {q : Project}
      (h : Filled folders ⟨t, before ++ s :: after⟩) (hcall : Project.Calls ⟨t, s⟩ q) :
      Filled folders ⟨q.files, before ++ q.session :: after⟩
  | edit {t t' : FileTree} {sessions : List Session} (h : Filled folders ⟨t, sessions⟩)
      (hnamed : t'.WellNamed) (hkept : ∀ folder, folders folder → Snapshot.Kept folder t t') :
      Filled folders ⟨t', sessions⟩

/-- A session on which a property of tags can be relied, with snapshots in some folders. -/
structure Carries (P : Dialect → Tag → Prop) (folders : Path → Prop) (s : Session) : Prop where
  grounded : s.index.Grounded
  each : s.index.Each P
  cache : ∀ folder ∈ s.workspace.cacheFolder?, folders folder

/-- A site whose snapshots and registries hold tags with some property. -/
structure Holds (P : Dialect → Tag → Prop) (folders : Path → Prop) (site : Site) : Prop where
  named : site.files.WellNamed
  snapshots : ∀ folder, folders folder → Snapshot.Lists P site.files folder
  sessions : ∀ s ∈ site.sessions, Carries P folders s

variable {P : Dialect → Tag → Prop} {folders : Path → Prop}

theorem Holds.call (hP : Inherent P) {t : FileTree} {before after : List Session} {s : Session}
    {q : Project} (h : Holds P folders ⟨t, before ++ s :: after⟩)
    (hcall : Project.Calls ⟨t, s⟩ q) :
    Holds P folders ⟨q.files, before ++ q.session :: after⟩ := by
  have hs : Carries P folders s := h.sessions s (by simp)
  obtain ⟨d, htakes⟩ := hcall.takes h.named
  have heach : q.index.Each P := htakes.each hP hs.grounded hs.each fun folder hfolder =>
    h.snapshots folder (hs.cache folder hfolder)
  have hq : Carries P folders q.session :=
    ⟨htakes.grounded hs.grounded, heach, fun folder hfolder =>
      hs.cache folder (htakes.cacheFolder ▸ hfolder)⟩
  refine ⟨htakes.wellNamed h.named, fun folder hfolder => ?_, fun s' hs' => ?_⟩
  · exact htakes.lists (h.snapshots folder hfolder) fun tag htag =>
      heach d tag (List.mem_filter.mp htag).1
  · rcases List.mem_append.mp hs' with hbefore | hrest
    · exact h.sessions s' (List.mem_append_left _ hbefore)
    · rcases List.mem_cons.mp hrest with rfl | hafter
      · exact hq
      · exact h.sessions s' (List.mem_append_right _ (List.mem_cons_of_mem _ hafter))

/-- Every history keeps such a property. -/
theorem Filled.holds (hP : Inherent P) {site : Site} (h : site.Filled folders) :
    site.Holds P folders := by
  induction h with
  | start hnamed hkept =>
      exact ⟨hnamed, fun folder hfolder =>
        (Snapshot.lists_empty P folder).kept (hkept folder hfolder), List.forall_mem_nil _⟩
  | load w h hcache ih =>
      refine ⟨ih.named, ih.snapshots, List.forall_mem_cons.mpr ⟨⟨?_, ?_, hcache⟩, ih.sessions⟩⟩
      · exact Index.grounded_empty _
      · exact Index.each_empty _
  | call h hcall ih => exact ih.call hP hcall
  | edit h hnamed hkept ih =>
      exact ⟨hnamed, fun folder hfolder => (ih.snapshots folder hfolder).kept
        (hkept folder hfolder), ih.sessions⟩

/-- A run of calls of one session. -/
theorem Filled.calls {t : FileTree} {before after : List Session} {s : Session} {q : Project}
    (h : Filled folders ⟨t, before ++ s :: after⟩)
    (hq : Relation.ReflTransGen Project.Calls ⟨t, s⟩ q) :
    Filled folders ⟨q.files, before ++ q.session :: after⟩ := by
  induction hq with
  | refl => exact h
  | tail _ hcall ih => exact ih.call hcall

/-- A single session that keeps no snapshots, after a run of its calls. -/
theorem Filled.opened {t : FileTree} {w : Workspace} {q : Project} (hnamed : t.WellNamed)
    (hcache : w.cacheFolder? = none)
    (hq : Relation.ReflTransGen Project.Calls ⟨t, .ofWorkspace w⟩ q) :
    Filled (fun _ => False) ⟨q.files, [q.session]⟩ := by
  have hstart : Filled (fun _ => False) ⟨t, []⟩ := .start hnamed fun _ hfolder => hfolder.elim
  have hopened : Filled (fun _ => False) ⟨t, [] ++ .ofWorkspace w :: []⟩ :=
    hstart.load w fun folder hfolder => nomatch hcache ▸ hfolder
  exact hopened.calls hq

end Site

/-- A tag is compiled from the metadata of its source and named after its file. -/
theorem Candidate.eq_ofMetadata {t : FileTree} {d : Dialect} {c : Candidate} {tag : Tag}
    (hentry : c.path.isEntry d.entryExtensions = true) (h : c.compile? t d = some tag) :
    ∃ name source file md, PlainName name ∧ d.compile source file = .ok md ∧
      tag = .ofMetadata ⟨c.space, name, d.delimiter⟩ d c.path c.modifiedAt md := by
  obtain ⟨steps, name, ext, -, hdot, hcomponents⟩ := Path.isEntry_iff.mp hentry
  have hplain : PlainName name :=
    Path.plainName_of_mem_components (p := c.path) (by rw [hcomponents]; simp)
  have hfile : c.path.components = (steps ++ [.name name]) ++ [.name (name ++ "." ++ ext)] := by
    rw [hcomponents]
    simp
  have hstem := (Path.extension?_of_components hplain.ne_nil hdot hfile).1
  rw [compile?_eq_bind] at h
  obtain ⟨source, -, hsource⟩ := Option.bind_eq_some_iff.mp h
  obtain ⟨localName, hname, hrest⟩ := Option.bind_eq_some_iff.mp hsource
  obtain ⟨md, hmd, htag⟩ := Option.bind_eq_some_iff.mp hrest
  obtain rfl := Option.some.inj (hstem.symm.trans hname)
  cases hresult : d.compile source (c.path.fileName?.getD "") with
  | error found =>
      rw [hresult] at hmd
      cases hmd
  | ok md' =>
      rw [hresult] at hmd
      obtain rfl := Option.some.inj hmd
      exact ⟨name, source, _, md', hplain, hresult, (Option.some.inj htag).symm⟩

/-- Members that are compiled have different names. -/
theorem nodup_names_of_compile {d : Dialect} {source file : String} {md : Metadata}
    (h : d.compile source file = .ok md) : (md.members.map ClassMember.name).Nodup := by
  rcases compile_records h with ⟨-, rfl⟩ | ⟨D, -, hrecords⟩
  · exact List.nodup_nil
  · have hnames : md.members.map ClassMember.name = (firstsBy Prod.fst D.members).map Prod.fst := by
      have hmembers := congrArg (List.map Prod.fst) hrecords.members
      rw [List.map_map, List.map_map] at hmembers
      exact hmembers
    rw [hnames]
    exact nodup_firstsBy Prod.fst D.members

/-- A tag with the mark of a dialect, a name, and members under different names. -/
structure Tag.Regular (d : Dialect) (t : Tag) : Prop where
  mark : t.identity.delimiter = d.delimiter
  named : PlainName t.identity.localName
  distinct : (t.members.map Member.name).Nodup

theorem inherent_regular : Inherent Tag.Regular where
  compiled := by
    intro t d c tag hentry hcompile
    obtain ⟨name, source, file, md, hname, hmd, rfl⟩ := Candidate.eq_ofMetadata hentry hcompile
    refine ⟨rfl, hname, ?_⟩
    rw [Tag.ofMetadata, Tag.ofMembers, List.map_map]
    exact nodup_names_of_compile hmd
  mirror tag h := ⟨rfl, h.named, h.distinct⟩

end ComponentAtlas
