import ComponentAtlas.Proofs.Path.Siblings
import ComponentAtlas.Proofs.Session.Contents

/-!
# One component for each folder

Whatever its history, a session gives each component the name of its file and the namespace of the
folder around the folder of the file. So the folder of a file determines the key under which its
component is registered, and a registry has at most one component of its dialect in each folder.
-/

namespace ComponentAtlas

/-- A tag with the namespace that a workspace gives to the folder around that of its file. -/
def Workspace.Homes (w : Workspace) (t : Tag) : Prop :=
  ∀ outer, t.file.grandparent? = some outer →
    t.identity.space = w.namespaceForRoot outer t.dialect

namespace Workspace

variable {w w' : Workspace} {t : Tag}

/-- The settings of a workspace and the name of a folder tell its namespace. -/
theorem namespaceForRoot_congr (hw : w'.settings = w.settings) {root outer : Path}
    (h : outer.components = root.components) (d : Dialect) :
    w'.namespaceForRoot outer d = w.namespaceForRoot root d := by
  rw [namespaceForRoot, namespaceForRoot, Path.fileName?_congr h, hw]

theorem Homes.of_settings (hw : w'.settings = w.settings) (h : w.Homes t) : w'.Homes t :=
  fun outer houter => (h outer houter).trans (namespaceForRoot_congr hw.symm rfl t.dialect)

/-- A tag of a candidate below a root has the namespace of the root. -/
theorem homes_of_stands {files : FileTree} {d : Dialect} {root : Path} {name ext : String}
    {c : Candidate} (hstands : c.Stands files w d root name ext) (hdialect : t.dialect = d)
    (hfile : t.file.same c.path = true) (hspace : t.identity.space = c.space) : w.Homes t := by
  intro outer houter
  have hcomponents := (Path.same_iff.mp hfile).trans hstands.components
  obtain ⟨outer', houter', hroot⟩ := Path.components_grandparent? hcomponents
  obtain rfl : outer = outer' := Option.some.inj (houter.symm.trans houter')
  rw [hspace, hstands.space, hdialect, namespaceForRoot_congr rfl hroot]

/-- A tag that has the name of its entry file and the namespace of the folder around. -/
structure Seats (w : Workspace) (t : Tag) : Prop where
  entry : t.file.isEntry t.dialect.entryExtensions = true
  named : t.file.stem? = some t.identity.localName
  homes : w.Homes t

/-- The components of the file tell the key. -/
theorem Seats.exists_components (h : w.Seats t) : ∃ steps name file outer,
    t.file.components = (steps ++ [.name name]) ++ [.name file] ∧ outer.components = steps ∧
      t.key = Identity.keyOf (w.namespaceForRoot outer t.dialect) name := by
  obtain ⟨steps, name, ext, -, hdot, hfile⟩ := Path.isEntry_iff.mp h.entry
  obtain ⟨outer, houter, hsteps⟩ := Path.components_grandparent? hfile
  have hlast : t.file.components = (steps ++ [.name name]) ++ [.name (name ++ "." ++ ext)] := by
    rw [hfile]
    simp
  have hplain : PlainName name :=
    Path.plainName_of_mem_components (p := t.file) (by rw [hfile]; simp)
  have hstem := (Path.extension?_of_components hplain.ne_nil hdot hlast).1
  have hname : t.identity.localName = name := Option.some.inj (h.named.symm.trans hstem)
  refine ⟨steps, name, _, outer, hlast, hsteps, ?_⟩
  rw [Tag.key, Identity.key, h.homes outer houter, hname]

/-- Tags of one dialect in one folder have the same key. -/
theorem Seats.key_eq {u : Tag} (h : w.Seats t) (h' : w.Seats u) (hdialect : t.dialect = u.dialect)
    (hbeside : t.file.Beside u.file) : t.key = u.key := by
  obtain ⟨steps, name, file, outer, hfile, hsteps, hkey⟩ := h.exists_components
  obtain ⟨steps', name', file', outer', hfile', hsteps', hkey'⟩ := h'.exists_components
  obtain ⟨hfolders, hnames⟩ := List.append_inj' ((Path.beside_iff hfile hfile').mp hbeside) rfl
  obtain rfl : name = name' := by simpa using hnames
  rw [hkey, hkey', hdialect,
    namespaceForRoot_congr rfl (hsteps.trans (hfolders.trans hsteps'.symm))]

end Workspace

namespace Project

section Calls

variable {p q : Project} {d : Dialect} (hp : p.index.Sound)
  (hhomes : p.index.All p.session.workspace.Homes)
include hp hhomes

/-- A batch of tags that have the namespace of their folder leaves all tags so. -/
theorem homes_commit {changes : List TagChange}
    (hc : ∀ t, .upsert t ∈ changes → p.session.workspace.Homes t) :
    (p.index.commit d changes).1.All p.session.workspace.Homes :=
  hhomes.commit (fun _ ht => ht) hp.aura_dialect hc

theorem PassesTo.homes {reuse : Bool} (h : p.PassesTo d reuse q) (ht : p.files.WellNamed) :
    q.index.All p.session.workspace.Homes := by
  cases h with
  | @settle roots results hroots hresults =>
      rw [index_settle]
      refine homes_commit hp hhomes fun t hmem => ?_
      obtain ⟨result, hresult, hsome⟩ := mem_passTags.mp (Registry.upsert_mem_replacement hmem)
      obtain ⟨c, hc, hres⟩ := Candidate.exists_of_mem_resolve (hresults.mem_iff.mp hresult)
      obtain ⟨root, -, name, ext, hstands⟩ :=
        Candidate.stands_of_mem_discover (t := p.files) ht hc
      obtain ⟨hdialect, hfile, -, hspace⟩ := hres.tag hsome
      exact (Workspace.homes_of_stands hstands hdialect hfile hspace).of_settings rfl

theorem UpdatesTo.homes {changes : List FileChange} (h : p.UpdatesTo changes d q)
    (ht : p.files.WellNamed) : q.index.All p.session.workspace.Homes := by
  cases h with
  | pass hroots hasks hpass =>
      have hall := hpass.homes (p := p.remember) hp
        (fun e t hmem => (hhomes e t hmem).of_settings rfl) ht
      exact fun e t hmem => (hall e t hmem).of_settings rfl
  | @batch roots outcomes tags hroots hasks houtcomes htags =>
      refine homes_commit hp hhomes fun t hmem => ?_
      obtain ⟨e, -, path, houtcome⟩ := Update.outcome_of_upsert houtcomes htags hmem
      obtain ⟨-, -, g, text, time, hgrand, -, -, hcompile⟩ := Update.outcome?_eq_some houtcome
      obtain ⟨hdialect, hfile, -, hspace, -⟩ := Candidate.compile?_eq_some hcompile
      intro outer houter
      rw [hfile] at houter
      obtain rfl : outer = g := Option.some.inj (houter.symm.trans hgrand)
      rw [hspace, hdialect]

omit hp hhomes in
theorem Calls.settings (h : p.Calls q) :
    q.session.workspace.settings = p.session.workspace.settings := by
  cases h with
  | pass d reuse hpass => rw [hpass.workspace]; rfl
  | update changes d hupdate =>
      cases hupdate with
      | pass _ _ hpass => rw [hpass.workspace]; rfl
      | batch => rfl
  | clear d => rfl
  | remember => rfl
  | forgetRoots => rfl

/-- Every call leaves all tags with the namespaces of their folders. -/
theorem Calls.homes (h : p.Calls q) (ht : p.files.WellNamed) :
    q.index.All q.session.workspace.Homes := by
  have hall : q.index.All p.session.workspace.Homes := by
    cases h with
    | pass d reuse hpass => exact hpass.homes hp hhomes ht
    | update changes d hupdate => exact hupdate.homes hp hhomes ht
    | clear d =>
        refine homes_commit hp hhomes fun t hmem => ?_
        exact nomatch Registry.upsert_mem_replacement hmem
    | remember => exact hhomes
    | forgetRoots => exact hhomes
  exact fun e t hmem => (hall e t hmem).of_settings h.settings

end Calls

end Project

/-- The name of a tag is that of its file, in what is compiled and in mirrors. -/
theorem inherent_stem : Inherent fun _ t => t.file.stem? = some t.identity.localName where
  compiled := by
    intro t d c tag hentry hcompile
    rw [Candidate.compile?_eq_bind] at hcompile
    obtain ⟨source, -, hsource⟩ := Option.bind_eq_some_iff.mp hcompile
    obtain ⟨localName, hname, hrest⟩ := Option.bind_eq_some_iff.mp hsource
    obtain ⟨md, -, htag⟩ := Option.bind_eq_some_iff.mp hrest
    cases htag
    exact hname
  mirror tag h := h

namespace Site

variable {folders : Path → Prop}

/-- After any history the tags of each session have the namespaces of their folders. -/
theorem Filled.homes {site : Site} (h : site.Filled folders) :
    ∀ s ∈ site.sessions, s.index.All s.workspace.Homes := by
  induction h with
  | start => exact fun s hs => nomatch hs
  | load w h hcache ih => exact List.forall_mem_cons.mpr ⟨Index.each_empty _, ih⟩
  | @call t before after s q h hcall ih =>
      have hholds := h.holds inherent_stem
      have hs : s ∈ before ++ s :: after := by simp
      have hq := hcall.homes (p := ⟨t, s⟩) (hholds.sessions s hs).grounded.sound (ih s hs)
        hholds.named
      intro s' hs'
      rcases List.mem_append.mp hs' with hbefore | hrest
      · exact ih s' (List.mem_append_left _ hbefore)
      · rcases List.mem_cons.mp hrest with rfl | hafter
        · exact hq
        · exact ih s' (List.mem_append_right _ (List.mem_cons_of_mem _ hafter))
  | edit h hnamed hkept ih => exact ih

/-- After any history each tag is placed as its file says. -/
theorem Filled.seats {site : Site} (h : site.Filled folders) {s : Session} (hs : s ∈ site.sessions)
    (d : Dialect) : ∀ t ∈ (s.index.registry d).tags, s.workspace.Seats t := by
  have hcarries := (h.holds inherent_stem).sessions s hs
  exact fun t ht => ⟨hcarries.grounded.entries d t ht, hcarries.each d t ht, h.homes s hs d t ht⟩

/-- After any history two own tags whose files stand in one folder are the same tag. -/
theorem Filled.eq_of_beside {site : Site} (h : site.Filled folders) {s : Session}
    (hs : s ∈ site.sessions) {d : Dialect} {t u : Tag} (ht : t ∈ (s.index.registry d).owned)
    (hu : u ∈ (s.index.registry d).owned) (hbeside : t.file.Beside u.file) : t = u := by
  obtain ⟨ht, hdialect⟩ := List.mem_filter.mp ht
  obtain ⟨hu, hdialect'⟩ := List.mem_filter.mp hu
  have hsame : t.dialect = u.dialect :=
    (beq_iff_eq.mp hdialect).trans (beq_iff_eq.mp hdialect').symm
  have hkey := (h.seats hs d t ht).key_eq (h.seats hs d u hu) hsame hbeside
  have hordered := ((h.holds inherent_stem).sessions s hs).grounded.sound.ordered d
  have hfound := hordered.lookup_of_mem ht
  rw [hkey, hordered.lookup_of_mem hu] at hfound
  exact (Option.some.inj hfound).symm

end Site

end ComponentAtlas
