import ComponentAtlas.Proofs.Session.Updates

/-!
# Updates agree with rebuilds

An update that starts from what a rebuild on the old files holds ends with what a rebuild on the
new files holds, if the batch tells every candidate that differs. Deleted files lose their keys,
files that are there are compiled as a rebuild compiles them, and what the batch does not mention
is the same on both sides.
-/

namespace ComponentAtlas

namespace Path

/-- The extension of an entry file tells its dialect. -/
theorem dialect_of_isEntry {p : Path} {d e : Dialect} (h : p.isEntry d.entryExtensions = true)
    (h' : p.isEntry e.entryExtensions = true) : d = e := by
  by_contra hne
  unfold isEntry at h h'
  split at h
  · cases h
  · next ext hext =>
      rw [hext] at h'
      simp only [Bool.and_eq_true, List.contains_iff_mem] at h h'
      exact d.entryExtensions_disjoint hne ext h.1 h'.1

end Path

namespace Registry

theorem tagForFile?_eq_some {r : Registry} {q : Path} {t : Tag} (h : r.tagForFile? q = some t) :
    t ∈ r.tags ∧ t.file.components = q.components := by
  have hsame := List.find?_some (p := fun t : Tag => t.file.same q) h
  exact ⟨List.mem_of_find?_eq_some h, Path.same_iff.mp hsame⟩

theorem tagForFile?_isSome {r : Registry} {q : Path} {t : Tag} (ht : t ∈ r.tags)
    (hfile : t.file.components = q.components) : ∃ u, r.tagForFile? q = some u := by
  rw [← Option.isSome_iff_exists, tagForFile?, List.find?_isSome]
  exact ⟨t, ht, Path.same_iff.mpr hfile⟩

end Registry

namespace Index.Grounded

variable {ix : Index} (h : ix.Grounded) {d : Dialect} {q : Path}
  (hq : q.isEntry d.entryExtensions = true)
include h hq

/-- The tag of an entry file of a dialect is an own tag. -/
theorem own_of_tagForFile? {t : Tag} (ht : (ix.registry d).tagForFile? q = some t) :
    ix.own d t.key = some t ∧ t.file.components = q.components := by
  obtain ⟨hmem, hfile⟩ := Registry.tagForFile?_eq_some ht
  have hentry : t.file.isEntry t.dialect.entryExtensions = true := h.entries d t hmem
  rw [Path.isEntry_congr hfile] at hentry
  refine ⟨Registry.own_eq_some.mpr ⟨?_, ?_⟩, hfile⟩
  · exact (h.sound.ordered d).lookup_of_mem hmem
  · rw [h.sound.dialect d]
    exact Path.dialect_of_isEntry hentry hq

end Index.Grounded

namespace Update

/-- What a batch has to tell of the candidates of a dialect that differ between two trees. -/
structure Tells (changes : List FileChange) (w : Workspace) (d : Dialect) (r : NamespaceRoots)
    (old new : FileTree) : Prop where
  /-- A file that is gone is deleted, or a folder around it is. -/
  gone : ∀ c ∈ Candidate.discover old w d r, ¬new.isFile c.path = true →
    ∃ e ∈ changes, e.kind = .deleted ∧
      (e.path = c.path ∨ e.path.extension? = none ∧ c.path.startsWith e.path = true)
  /-- A file that is new or differs is created or changed. -/
  come : ∀ c ∈ Candidate.discover new w d r, old.entry? c.path ≠ new.entry? c.path →
    ∃ e ∈ changes, e.kind ≠ .deleted ∧ e.path = c.path
  /-- A file that is deleted and there again is created or changed too. -/
  back : ∀ e ∈ changes, e.kind = .deleted → e.path.isEntry d.entryExtensions = true →
    new.isFile e.path = true → ∃ e' ∈ changes, e'.kind ≠ .deleted ∧ e'.path = e.path
  /-- Changes spell files as discovery does. -/
  spelled : ∀ e ∈ changes, ∀ c ∈ Candidate.discover old w d r ++ Candidate.discover new w d r,
    e.path.same c.path = true → e.path = c.path
  /-- No change lies in an excluded container. -/
  included : ∀ e ∈ changes, e.path.isEntry d.entryExtensions = true →
    ∀ folder ∈ e.path.parent?, ¬w.exclusion.excludes folder = true

/-- A tree whose files tell the candidates of a dialect and their keys. -/
structure Legible (t : FileTree) (w : Workspace) (d : Dialect) (r : NamespaceRoots) : Prop where
  named : t.WellNamed
  single : Candidate.SingleEntry t w d r
  distinct : Candidate.Distinct (Candidate.discover t w d r)

/-- A tree whose files tell the candidates of a dialect, each under a key of its own. -/
structure Listed (t : FileTree) (w : Workspace) (d : Dialect) (r : NamespaceRoots) : Prop where
  named : t.WellNamed
  distinct : Candidate.Distinct (Candidate.discover t w d r)

theorem Legible.listed {t : FileTree} {w : Workspace} {d : Dialect} {r : NamespaceRoots}
    (h : Legible t w d r) : Listed t w d r :=
  ⟨h.named, h.distinct⟩

/-- A batch tells that a file is there. -/
def Names (changes : List FileChange) (file : Path) : Prop :=
  ∃ e ∈ changes, e.kind ≠ .deleted ∧ e.path = file

instance (changes : List FileChange) (file : Path) : Decidable (Names changes file) :=
  inferInstanceAs (Decidable (∃ e ∈ changes, e.kind ≠ .deleted ∧ e.path = file))

/-- A batch keeps to the files that discovery selects, as far as they concern a key. -/
structure Prefers (changes : List FileChange) (p : Project) (d : Dialect) (r : NamespaceRoots)
    (old : FileTree) (key : String) : Prop where
  /-- Nothing is compiled but what is selected. -/
  only : ∀ e ∈ changes, ∀ u ∈ (outcome? p d r e).bind Prod.snd, u.key = key →
    ∃ c ∈ Candidate.discover p.files p.session.workspace d r, e.path.same c.path = true
  /-- A file that compiles and was not selected before is told. -/
  moved : ∀ c ∈ Candidate.discover p.files p.session.workspace d r, c.key = key →
    (c.compile? p.files d).isSome = true → Names changes c.path ∨
      ∃ c' ∈ Candidate.discover old p.session.workspace d r, c'.path.same c.path = true
  /-- A file that compiled is told, or it is gone, when nothing that is selected compiles. -/
  left : ∀ c ∈ Candidate.discover old p.session.workspace d r, c.key = key →
    (c.compile? old d).isSome = true →
    (∀ c' ∈ Candidate.discover p.files p.session.workspace d r, c'.key = key →
      c'.compile? p.files d = none) → p.files.isFile c.path = true → Names changes c.path

section Agreement

variable {p : Project} {d : Dialect} {r : NamespaceRoots} {old : FileTree} {V : Versions}
  {changes : List FileChange}

/-- What an update starts from: two trees with candidates of distinct keys that show the same
versions, an index that holds what the old one gives, and a batch that tells the difference. -/
structure Synced (p : Project) (d : Dialect) (r : NamespaceRoots) (old : FileTree) (V : Versions)
    (changes : List FileChange) : Prop where
  before : Listed old p.session.workspace d r
  after : Listed p.files p.session.workspace d r
  showsOld : old.Shows V
  showsNew : p.files.Shows V
  grounded : p.index.Grounded
  own : (p.index.own d).Alike (Holdings.ofTags (Candidate.compiledTags old d
    (Candidate.discover old p.session.workspace d r)))
  tells : Tells changes p.session.workspace d r old p.files

/-- A file that stands in a container below a root is compiled when the batch tells of it. -/
theorem outcome_of_stands {root : Path} (hroot : root ∈ r.forDialect d) {name ext : String}
    {c : Candidate} (hstands : c.Stands p.files p.session.workspace d root name ext)
    {e : FileChange} (hkind : e.kind ≠ .deleted) (hpath : e.path = c.path) :
    outcome? p d r e = some (c.path, c.compile? p.files d) := by
  obtain ⟨g, hgrand, hsteps⟩ := Path.components_grandparent? hstands.components
  obtain ⟨text, hfile⟩ := hstands.file
  have hcontains : r.contains d g = true :=
    List.any_eq_true.mpr ⟨root, hroot, Path.same_iff.mpr hsteps⟩
  have hspace : p.session.workspace.namespaceForRoot g d = c.space := by
    rw [hstands.space, Workspace.namespaceForRoot, Workspace.namespaceForRoot,
      Path.fileName?_congr hsteps]
  unfold outcome?
  rw [hpath, if_pos ⟨hstands.isEntry, hkind⟩, hgrand, Option.filter_some, if_pos hcontains,
    FileTree.modifiedAt?_of_file hfile]
  simp only [Option.bind_eq_bind, Option.bind_some, hspace]
  rfl

namespace Synced

variable (h : Synced p d r old V changes)
include h

/-- Each own tag is what a candidate of the old tree gives. -/
theorem candidate_of_own {key : String} {t : Tag} (ht : p.index.own d key = some t) :
    ∃ c ∈ Candidate.discover old p.session.workspace d r, ∃ u,
      c.compile? old d = some u ∧ t.Alike u ∧ c.key = key := by
  have hrel := h.own key
  rw [ht] at hrel
  obtain ⟨u, hu, halike⟩ := hrel.some_left
  obtain ⟨hmem, hkey⟩ := Holdings.ofTags_mem hu
  obtain ⟨c, hc, hcompile⟩ := List.mem_filterMap.mp hmem
  exact ⟨c, hc, u, hcompile, halike,
    (Candidate.compile?_eq_some hcompile).2.2.2.2.symm.trans hkey⟩

/-- Each candidate of the old tree that compiles is held. -/
theorem own_of_candidate {c : Candidate}
    (hc : c ∈ Candidate.discover old p.session.workspace d r) {u : Tag}
    (hu : c.compile? old d = some u) : ∃ t, p.index.own d c.key = some t ∧ t.Alike u := by
  have hmem : u ∈ Candidate.compiledTags old d
      (Candidate.discover old p.session.workspace d r) := List.mem_filterMap.mpr ⟨c, hc, hu⟩
  rw [← (Candidate.compile?_eq_some hu).2.2.2.2]
  exact h.own.of_mem
    (Candidate.compiledTags_keys h.before.named h.showsOld h.before.distinct) hmem

theorem stands_old {c : Candidate} (hc : c ∈ Candidate.discover old p.session.workspace d r) :
    ∃ root ∈ r.forDialect d, ∃ name ext, c.Stands old p.session.workspace d root name ext :=
  Candidate.stands_of_mem_discover h.before.named hc

theorem stands_new {c : Candidate}
    (hc : c ∈ Candidate.discover p.files p.session.workspace d r) :
    ∃ root ∈ r.forDialect d, ∃ name ext, c.Stands p.files p.session.workspace d root name ext :=
  Candidate.stands_of_mem_discover h.after.named hc

/-- The key of the tag of an old file is that of its candidate. -/
theorem key_of_tagForFile? {c : Candidate}
    (hc : c ∈ Candidate.discover old p.session.workspace d r) {q : Path}
    (hq : q.components = c.path.components) {t : Tag}
    (ht : (p.index.registry d).tagForFile? q = some t) : t.key = c.key := by
  obtain ⟨root, -, name, ext, hstands⟩ := h.stands_old hc
  have hentry : q.isEntry d.entryExtensions = true := by
    rw [Path.isEntry_congr hq, hstands.isEntry]
  obtain ⟨hown, hfile⟩ := h.grounded.own_of_tagForFile? hentry ht
  obtain ⟨c', hc', u, hu, halike, hkey⟩ := h.candidate_of_own hown
  obtain ⟨root', -, name', ext', hstands'⟩ := h.stands_old hc'
  have hpath : c'.path.components = c.path.components := by
    rw [← (Candidate.compile?_eq_some hu).2.1, ← halike.components, hfile, hq]
  rw [← hkey, Candidate.key, Candidate.key, (hstands'.eq_of_same hstands hpath).1,
    Path.stem?_congr hpath]

theorem tagForFile?_of_candidate {c : Candidate}
    (hc : c ∈ Candidate.discover old p.session.workspace d r) {u : Tag}
    (hu : c.compile? old d = some u) :
    ∃ t, (p.index.registry d).tagForFile? c.path = some t ∧ t.key = c.key := by
  obtain ⟨t, ht, halike⟩ := h.own_of_candidate hc hu
  have hfile : t.file.components = c.path.components := by
    rw [halike.components, (Candidate.compile?_eq_some hu).2.1]
  obtain ⟨t', ht'⟩ := Registry.tagForFile?_isSome
    (Registry.mem_of_lookup (Registry.own_eq_some.mp ht).1) hfile
  exact ⟨t', ht', h.key_of_tagForFile? hc rfl ht'⟩

/-- A candidate of the new tree that the batch tells is compiled. -/
theorem outcome_of_candidate {c : Candidate}
    (hc : c ∈ Candidate.discover p.files p.session.workspace d r) {e : FileChange}
    (hkind : e.kind ≠ .deleted) (hpath : e.path = c.path) :
    outcome? p d r e = some (c.path, c.compile? p.files d) := by
  obtain ⟨root, hroot, name, ext, hstands⟩ := h.stands_new hc
  exact outcome_of_stands hroot hstands hkind hpath

/-- A file that the batch does not tell is the same in both trees. -/
theorem unchanged {c : Candidate}
    (hc : c ∈ Candidate.discover p.files p.session.workspace d r)
    (hnone : ¬Names changes c.path) : old.entry? c.path = p.files.entry? c.path := by
  by_contra hne
  exact hnone (h.tells.come c hc hne)

/-- Each removed key is that of an own tag whose file the batch names. -/
theorem own_of_removal {outcomes : List (Path × Option Tag)}
    (houtcomes : outcomes.Perm (changes.filterMap (outcome? p d r))) {key : String}
    (hkey : key ∈ changes.filterMap (deletedKey? p d) ++
      outcomes.filterMap (brokenKey? (p.index.registry d))) :
    ∃ e ∈ changes, ∃ t, p.index.own d key = some t ∧ t.file.components = e.path.components ∧
      e.path.isEntry d.entryExtensions = true := by
  have hfound : ∀ e ∈ changes, e.path.isEntry d.entryExtensions = true →
      ((p.index.registry d).tagForFile? e.path).map Tag.key = some key →
        ∃ e ∈ changes, ∃ t, p.index.own d key = some t ∧
          t.file.components = e.path.components ∧ e.path.isEntry d.entryExtensions = true := by
    intro e he hentry htag
    obtain ⟨t, ht, rfl⟩ := Option.map_eq_some_iff.mp htag
    obtain ⟨hown, hfile⟩ := h.grounded.own_of_tagForFile? hentry ht
    exact ⟨e, he, t, hown, hfile, hentry⟩
  rcases List.mem_append.mp hkey with hdeleted | hbroken
  · obtain ⟨e, he, htag⟩ := List.mem_filterMap.mp hdeleted
    unfold deletedKey? at htag
    split at htag
    · next hkeep => exact hfound e he hkeep.1 htag
    · cases htag
  · obtain ⟨outcome, ho, htag⟩ := List.mem_filterMap.mp hbroken
    obtain ⟨e, he, houtcome⟩ := List.mem_filterMap.mp (houtcomes.mem_iff.mp ho)
    unfold brokenKey? at htag
    split at htag
    · unfold outcome? at houtcome
      split at houtcome
      · next hkeep =>
          obtain ⟨g, -, htime⟩ := Option.bind_eq_some_iff.mp houtcome
          obtain ⟨time, -, hcompiled⟩ := Option.bind_eq_some_iff.mp htime
          cases hcompiled
          exact hfound e he hkeep.1 htag
      · cases houtcome
    · cases htag

/-- A folder that goes with a candidate asks for a full pass. -/
theorem asksPass_of_folder {c : Candidate}
    (hc : c ∈ Candidate.discover old p.session.workspace d r) {e : FileChange} (he : e ∈ changes)
    (hkind : e.kind = .deleted) (hext : e.path.extension? = none)
    (hbelow : c.path.startsWith e.path = true) : Project.asksPass changes d r = true := by
  obtain ⟨root, hroot, name, ext, hstands⟩ := h.stands_old hc
  refine List.any_eq_true.mpr ⟨e, he, ?_⟩
  rw [Bool.and_eq_true, FileChange.deletesFolder, hkind, hext]
  refine ⟨rfl, List.any_eq_true.mpr ⟨root, hroot, ?_⟩⟩
  rw [Bool.or_eq_true, Path.startsWith_iff, Path.startsWith_iff]
  have hprefix := Path.startsWith_iff.mp hbelow
  rw [hstands.components] at hprefix
  exact List.prefix_or_prefix_of_prefix (List.prefix_append _ _) hprefix

/-- A file that compiled before loses its key, when it is gone or is told and nothing compiles. -/
theorem removal_of_candidate {outcomes : List (Path × Option Tag)}
    (houtcomes : outcomes.Perm (changes.filterMap (outcome? p d r)))
    (hasks : ¬Project.asksPass changes d r = true) {c : Candidate}
    (hc : c ∈ Candidate.discover old p.session.workspace d r) {u : Tag}
    (hu : c.compile? old d = some u) (hnone : ∀ u ∈ lastTags outcomes, u.key ≠ c.key)
    (hnames : p.files.isFile c.path = true → Names changes c.path) :
    c.key ∈ changes.filterMap (deletedKey? p d) ++
      outcomes.filterMap (brokenKey? (p.index.registry d)) := by
  obtain ⟨root, hroot, name, ext, hstands⟩ := h.stands_old hc
  obtain ⟨t, ht, hkey⟩ := h.tagForFile?_of_candidate hc hu
  rw [List.mem_append]
  by_cases hisFile : p.files.isFile c.path = true
  · -- The file is still there and told, and it was compiled in vain.
    right
    obtain ⟨text, time, hfile⟩ := FileTree.isFile_iff.mp hisFile
    have hnew : Candidate.Stands p.files p.session.workspace d root name ext
        ⟨c.path, c.space, time⟩ :=
      ⟨hstands.plain, hstands.extension, hstands.included, hstands.path, hstands.space, text, hfile⟩
    obtain ⟨e, he, hkind, hpath⟩ := hnames hisFile
    have houtcome := outcome_of_stands hroot hnew hkind hpath
    have hmem := houtcomes.mem_iff.mpr (List.mem_filterMap.mpr ⟨e, he, houtcome⟩)
    cases hcompile : Candidate.compile? p.files d ⟨c.path, c.space, time⟩ with
    | some v =>
        obtain ⟨u, hu, hukey⟩ := exists_lastTag hmem hcompile
        exact absurd (hukey.trans (Candidate.compile?_eq_some hcompile).2.2.2.2) (hnone u hu)
    | none =>
        rw [hcompile] at hmem
        refine List.mem_filterMap.mpr ⟨_, hmem, ?_⟩
        rw [brokenKey?, ht]
        exact congrArg some hkey
  · left
    obtain ⟨e, he, hkind, hpath | ⟨hext, hbelow⟩⟩ := h.tells.gone c hc hisFile
    · refine List.mem_filterMap.mpr ⟨e, he, ?_⟩
      rw [deletedKey?, hpath, if_pos ⟨hstands.isEntry, hkind⟩, ht]
      exact congrArg some hkey
    · exact absurd (h.asksPass_of_folder hc he hkind hext hbelow) hasks

/-- What was compiled last for a key is the tag of a candidate, if only candidates are compiled. -/
theorem candidate_of_lastTag {key : String} {outcomes : List (Path × Option Tag)}
    (houtcomes : outcomes.Perm (changes.filterMap (outcome? p d r)))
    (honly : ∀ e ∈ changes, ∀ u ∈ (outcome? p d r e).bind Prod.snd, u.key = key →
      ∃ c ∈ Candidate.discover p.files p.session.workspace d r, e.path.same c.path = true)
    {u : Tag} (hu : u ∈ lastTags outcomes) (hkey : u.key = key) :
    ∃ c ∈ Candidate.discover p.files p.session.workspace d r, c.compile? p.files d = some u := by
  obtain ⟨⟨path, _⟩, ho, rfl⟩ := mem_lastTags hu
  obtain ⟨e, he, houtcome⟩ := List.mem_filterMap.mp (houtcomes.mem_iff.mp ho)
  obtain ⟨-, hkind, -⟩ := outcome?_eq_some houtcome
  obtain ⟨c, hc, hsame⟩ := honly e he u (by rw [houtcome]; rfl) hkey
  have hspelled := h.tells.spelled e he c (List.mem_append_right _ hc) hsame
  have hcompile := h.outcome_of_candidate hc hkind hspelled
  exact ⟨c, hc, (Prod.mk.inj (Option.some.inj (hcompile.symm.trans houtcome))).2⟩

/-- The tag of a candidate is what a rebuild holds under its key. -/
theorem ofTags_of_candidate {c : Candidate}
    (hc : c ∈ Candidate.discover p.files p.session.workspace d r) {u : Tag}
    (hu : c.compile? p.files d = some u) :
    ∃ v, Holdings.ofTags (Candidate.compiledTags p.files d
      (Candidate.discover p.files p.session.workspace d r)) u.key = some v ∧ u.Alike v := by
  have hcompiled : u ∈ Candidate.compiledTags p.files d
      (Candidate.discover p.files p.session.workspace d r) :=
    List.mem_filterMap.mpr ⟨c, hc, hu⟩
  cases hv : Holdings.ofTags (Candidate.compiledTags p.files d
      (Candidate.discover p.files p.session.workspace d r)) u.key with
  | none => exact absurd rfl (Holdings.ofTags_eq_none.mp hv u hcompiled)
  | some v =>
      obtain ⟨hvmem, hvkey⟩ := Holdings.ofTags_mem hv
      exact ⟨v, rfl, Candidate.compiledTags_keys h.after.named h.showsNew h.after.distinct
        u hcompiled v hvmem hvkey.symm⟩

/-- A candidate that compiles, with a key for which nothing was compiled, is not in the batch. -/
theorem not_told {outcomes : List (Path × Option Tag)}
    (houtcomes : outcomes.Perm (changes.filterMap (outcome? p d r))) {c : Candidate}
    (hc : c ∈ Candidate.discover p.files p.session.workspace d r) {v : Tag}
    (hv : c.compile? p.files d = some v) (hnone : ∀ u ∈ lastTags outcomes, u.key ≠ c.key) :
    ¬Names changes c.path := by
  rintro ⟨e, he, hkind, hpath⟩
  have houtcome := h.outcome_of_candidate hc hkind hpath
  obtain ⟨u, hu, hukey⟩ := exists_lastTag
    (houtcomes.mem_iff.mpr (List.mem_filterMap.mpr ⟨e, he, houtcome⟩)) hv
  exact hnone u hu (hukey.trans (Candidate.compile?_eq_some hv).2.2.2.2)

/-- A candidate of the old tree keeps its key, if its file is still there and the batch does not
tell it. -/
theorem not_removed {outcomes : List (Path × Option Tag)}
    (houtcomes : outcomes.Perm (changes.filterMap (outcome? p d r))) {c : Candidate}
    (hc : c ∈ Candidate.discover old p.session.workspace d r)
    (hisFile : p.files.isFile c.path = true) (hnone : ¬Names changes c.path) :
    c.key ∉ changes.filterMap (deletedKey? p d) ++
      outcomes.filterMap (brokenKey? (p.index.registry d)) := by
  intro hgone
  -- A removed key is that of a file that the batch names, and this one it does not.
  obtain ⟨e, he, t, ht, hfile, hentry⟩ := h.own_of_removal houtcomes hgone
  obtain ⟨c₀, hc₀, u, hu, halike, hkey₀⟩ := h.candidate_of_own ht
  have hsame := h.before.distinct c₀ hc₀ c hc hkey₀
  have hpath : e.path.same c.path = true := by
    rw [Path.same_iff, ← hfile, halike.components, (Candidate.compile?_eq_some hu).2.1]
    exact Path.same_iff.mp hsame
  have hspelled := h.tells.spelled e he c (List.mem_append_left _ hc) hpath
  by_cases hkind : e.kind = .deleted
  · obtain ⟨e', he', hkind', hpath'⟩ := h.tells.back e he hkind hentry (hspelled ▸ hisFile)
    exact hnone ⟨e', he', hkind', hpath'.trans hspelled⟩
  · exact hnone ⟨e, he, hkind, hspelled⟩

/-- A candidate of the old tree whose file is a candidate of the new one, and that the batch does
not tell, gives the same tag under the same key. -/
theorem of_untold {c c' : Candidate}
    (hc : c ∈ Candidate.discover p.files p.session.workspace d r) {v : Tag}
    (hv : c.compile? p.files d = some v) (hnone : ¬Names changes c.path)
    (hc' : c' ∈ Candidate.discover old p.session.workspace d r)
    (hsame : c'.path.same c.path = true) :
    c'.key = c.key ∧ p.files.isFile c'.path = true ∧ ¬Names changes c'.path ∧
      ∃ u, c'.compile? old d = some u ∧ u.Alike v := by
  have hsteps := Path.same_iff.mp hsame
  obtain ⟨root, -, name, ext, hstands⟩ := h.stands_new hc
  obtain ⟨root', -, name', ext', hstands'⟩ := h.stands_old hc'
  have hold : c.Stands old p.session.workspace d root name ext :=
    { hstands with file := by rw [h.unchanged hc hnone]; exact hstands.file }
  obtain ⟨hspace, htime⟩ := hstands'.eq_of_same hold hsteps
  refine ⟨?_, ?_, ?_, ?_⟩
  · rw [Candidate.key, Candidate.key, hspace, Path.stem?_congr hsteps]
  · obtain ⟨text, hfile⟩ := hstands.file
    refine FileTree.isFile_iff.mpr ⟨text, c.modifiedAt, ?_⟩
    rw [hstands'.path]
    refine FileTree.entry?_join_of_same hstands'.plainFile ?_ hfile
    rw [← hsteps, hstands'.path]
    rfl
  · rintro ⟨e, he, hkind, hpath⟩
    have hspelled := h.tells.spelled e he c (List.mem_append_right _ hc) (by rw [hpath, hsame])
    exact hnone ⟨e, he, hkind, hspelled⟩
  · have hrel : AlikeOption (c'.compile? old d) (c.compile? p.files d) := by
      rw [hstands'.compile?_eq_tag? h.showsOld, hstands.compile?_eq_tag? h.showsNew]
      exact Versions.tag?_alike hsteps hspace htime
    rw [hv] at hrel
    exact hrel.some_right

/-- The batch of an update leaves under a key what the files of the new candidates give, if it
keeps to the files that are selected. -/
theorem own_batch {key : String} (hprefers : Prefers changes p d r old key)
    {outcomes : List (Path × Option Tag)} {tags : List Tag}
    (hasks : ¬Project.asksPass changes d r = true)
    (houtcomes : outcomes.Perm (changes.filterMap (outcome? p d r)))
    (htags : tags.Perm (lastTags outcomes)) :
    AlikeOption ((p.index.own d).changeAll (batchOf p d changes outcomes tags) key)
      (Holdings.ofTags (Candidate.compiledTags p.files d
        (Candidate.discover p.files p.session.workspace d r)) key) := by
  rw [batchOf, Holdings.changeAll_append, Holdings.changeAll_upsert, Holdings.changeAll_remove]
  cases hfind : tags.reverse.find? fun t => t.key == key with
  | some u =>
      have hkey : u.key = key := by simpa using List.find?_some hfind
      have hmem : u ∈ lastTags outcomes :=
        htags.mem_iff.mp (List.mem_reverse.mp (List.mem_of_find?_eq_some hfind))
      obtain ⟨c, hc, hu⟩ := h.candidate_of_lastTag houtcomes hprefers.only hmem hkey
      obtain ⟨v, hv, halike⟩ := h.ofTags_of_candidate hc hu
      rw [Option.some_or, ← hkey, hv]
      exact .some halike
  | none =>
      have hlast : ∀ u ∈ lastTags outcomes, u.key ≠ key := by
        intro u hu
        have hnot := List.find?_eq_none.mp hfind u (List.mem_reverse.mpr (htags.mem_iff.mpr hu))
        simpa using hnot
      rw [Option.none_or]
      cases hgiven : Holdings.ofTags (Candidate.compiledTags p.files d
          (Candidate.discover p.files p.session.workspace d r)) key with
      | none =>
          split
          · exact .none
          · next hkeep =>
              cases ht : p.index.own d key with
              | none => exact .none
              | some t =>
                  -- The file of the tag does not compile any longer, so its key is removed.
                  obtain ⟨c, hc, u, hu, -, rfl⟩ := h.candidate_of_own ht
                  refine absurd (h.removal_of_candidate houtcomes hasks hc hu hlast ?_) hkeep
                  refine hprefers.left c hc rfl (by rw [hu]; rfl) fun c' hc' hkey => ?_
                  rw [Option.eq_none_iff_forall_ne_some]
                  intro v hv
                  refine Holdings.ofTags_eq_none.mp hgiven v
                    (List.mem_filterMap.mpr ⟨c', hc', hv⟩) ?_
                  rw [(Candidate.compile?_eq_some hv).2.2.2.2, hkey]
      | some v =>
          obtain ⟨hmem, hvkey⟩ := Holdings.ofTags_mem hgiven
          obtain ⟨c, hc, hv⟩ := List.mem_filterMap.mp hmem
          obtain rfl : c.key = key := (Candidate.compile?_eq_some hv).2.2.2.2.symm.trans hvkey
          have hnone := h.not_told houtcomes hc hv hlast
          obtain ⟨c', hc', hsame⟩ :=
            (hprefers.moved c hc rfl (by rw [hv]; rfl)).resolve_left hnone
          obtain ⟨hkey, hisFile, hnone', u, hu, halike⟩ := h.of_untold hc hv hnone hc' hsame
          obtain ⟨t, ht, htu⟩ := h.own_of_candidate hc' hu
          have hkept := h.not_removed houtcomes hc' hisFile hnone'
          rw [hkey] at ht hkept
          rw [if_neg hkept, ht]
          exact .some (htu.trans halike)

/-- When no container holds two entry files, every batch keeps to those that are selected. -/
theorem prefers_of_single (hsingle : Candidate.SingleEntry old p.session.workspace d r)
    (hsingle' : Candidate.SingleEntry p.files p.session.workspace d r) (key : String) :
    Prefers changes p d r old key := by
  refine ⟨fun e he u hu _ => ?_, fun c hc _ _ => ?_, fun c hc hkey hcompile hnone hisFile => ?_⟩
  · obtain ⟨⟨path, _⟩, ho, rfl⟩ := Option.bind_eq_some_iff.mp hu
    obtain ⟨hentry, -, g, text, time, hgrand, hcontains, hfile, -⟩ := outcome?_eq_some ho
    obtain ⟨root, hroot, hsame⟩ := List.any_eq_true.mp hcontains
    obtain ⟨name, ext, hstands, hpath⟩ := Candidate.stands_of_file hentry hgrand
      (Path.same_iff.mp hsame) (h.tells.included e he hentry) hfile
    exact ⟨_, Candidate.mem_discover_of_stands hsingle' hroot hstands, Path.same_iff.mpr hpath⟩
  · refine or_iff_not_imp_left.mpr fun hno => ?_
    obtain ⟨root, hroot, name, ext, hstands⟩ := h.stands_new hc
    have hold : c.Stands old p.session.workspace d root name ext :=
      { hstands with file := by rw [h.unchanged hc hno]; exact hstands.file }
    exact ⟨c, Candidate.mem_discover_of_stands hsingle hroot hold, Path.same_refl _⟩
  · obtain ⟨root, hroot, name, ext, hstands⟩ := h.stands_old hc
    obtain ⟨text, time, hfile⟩ := FileTree.isFile_iff.mp hisFile
    have hnew : Candidate.Stands p.files p.session.workspace d root name ext
        ⟨c.path, c.space, time⟩ :=
      ⟨hstands.plain, hstands.extension, hstands.included, hstands.path, hstands.space, text, hfile⟩
    have hmem := Candidate.mem_discover_of_stands hsingle' hroot hnew
    by_contra hno
    -- A file that is the same in both trees compiles in both or in none.
    obtain ⟨u, hu⟩ := Option.isSome_iff_exists.mp hcompile
    obtain ⟨text', hfile'⟩ := hstands.file
    rw [h.unchanged hmem hno, hfile] at hfile'
    obtain ⟨-, htime⟩ := Entry.file.inj (Except.ok.inj hfile')
    have hfails := hnone _ hmem hkey
    rw [hnew.compile?_eq_tag? h.showsNew, htime, ← hstands.compile?_eq_tag? h.showsOld,
      hu] at hfails
    cases hfails

end Synced

end Agreement

end Update

namespace Project

section Update

variable {p : Project} {d : Dialect} {r : NamespaceRoots} {old : FileTree} {V : Versions}
  {changes : List FileChange}

/-- The own tags of an index that holds what the old files give are honest. -/
theorem honest_of_synced (h : Update.Synced p d r old V changes) :
    ∀ t ∈ (p.index.registry d).owned, V.Honest d t := by
  intro t ht
  have hown := (Registry.mem_owned_iff (h.grounded.sound.ordered d)).mp ht
  obtain ⟨c, hc, u, hu, halike, -⟩ := h.candidate_of_own hown
  obtain ⟨root, -, name, ext, hstands⟩ := h.stands_old hc
  exact ⟨c, u, by rw [← hstands.compile?_eq_tag? h.showsOld, hu], halike⟩

section Synced

variable {q : Project} (h : Update.Synced p d r old V changes) (hq : p.UpdatesTo changes d q)
include h hq

theorem UpdatesTo.grounded_of_synced : q.index.Grounded := by
  cases hq with
  | pass hfound hasks hpass => exact hpass.grounded (p := p.remember) h.grounded h.after.named
  | batch hfound hasks houtcomes htags =>
      exact h.grounded.commit (Update.entry_of_upsert houtcomes htags)

/-- An update leaves under a key what the files of the new candidates give, if it is a full pass or
the batch keeps to the files that are selected. -/
theorem UpdatesTo.own_alike_of_synced (hroots : p.namespaceRoots = .ok r)
    (hsnapshot : ¬p.session.restored.contains d = true →
      ∀ t ∈ p.storedTags d, t.dialect = d → V.Honest d t) {key : String}
    (hprefers : asksPass changes d r = true ∨ Update.Prefers changes p d r old key) :
    AlikeOption (q.index.own d key) (Holdings.ofTags (Candidate.compiledTags p.files d
      (Candidate.discover p.files p.session.workspace d r)) key) := by
  cases hq with
  | pass hfound hasks hpass =>
      refine hpass.own_alike (p := p.remember) (by rw [namespaceRoots_remember, hroots]) h.grounded
        h.after.named h.showsNew h.after.distinct (fun _ t ht hdialect => ?_) key
      by_cases hrestored : p.session.restored.contains d = true
      · have hstored : p.remember.storedTags d = (p.index.registry d).owned := if_pos hrestored
        exact honest_of_synced h t (hstored ▸ ht)
      · exact hsnapshot hrestored t ht hdialect
  | batch hfound hasks houtcomes htags =>
      obtain rfl := Except.ok.inj (hfound.symm.trans hroots)
      have hentries := Update.entry_of_upsert houtcomes htags
      have hbatch := h.own_batch (hprefers.resolve_left hasks) hasks houtcomes htags
      rw [← h.grounded.sound.own_commit fun t ht => (hentries t ht).1] at hbatch
      exact hbatch

end Synced

/-- An update that starts from what a rebuild on the old files holds succeeds, and in whatever
order its tasks complete it ends with what a rebuild on the new files holds. The batch tells the
candidates that differ, both trees show one content of a file at one time, the roots are the same
in both, and a snapshot that is still to be read is honest. -/
theorem update_rebuilds (hroots : p.namespaceRoots = .ok r)
    (hold : p.session.workspace.searchRoots old = .ok r)
    (hnew : p.session.workspace.searchRoots p.files = .ok r)
    (hbefore : Update.Legible old p.session.workspace d r)
    (hafter : Update.Legible p.files p.session.workspace d r)
    (hshows : old.Shows V) (hshows' : p.files.Shows V) (hindex : p.index.Grounded)
    (howned : AlikeTags (p.index.registry d).owned (p.session.workspace.rebuilt old d))
    (hsnapshot : ¬p.session.restored.contains d = true →
      ∀ t ∈ p.storedTags d, t.dialect = d → V.Honest d t)
    (htells : Update.Tells changes p.session.workspace d r old p.files) :
    (p.update changes d).2.isOk = true ∧ p.UpdatesTo changes d (p.update changes d).1 ∧
      ∀ q, p.UpdatesTo changes d q →
        AlikeTags (q.index.registry d).owned (p.session.workspace.rebuilt p.files d) := by
  refine ⟨update_isOk hroots, updatesTo_update hroots, fun q hq => ?_⟩
  have hsynced : Update.Synced p d r old V changes :=
    ⟨hbefore.listed, hafter.listed, hshows, hshows', hindex,
      (Workspace.alike_rebuilt_iff hbefore.named hold hindex).mp howned, htells⟩
  have hgrounded := hq.grounded_of_synced hsynced
  refine (Workspace.alike_rebuilt_iff hafter.named hnew hgrounded).mpr fun key => ?_
  exact hq.own_alike_of_synced hsynced hroots hsnapshot
    (.inr (hsynced.prefers_of_single hbefore.single hafter.single key))

end Update

namespace Sample

/-- A namespace root with one component. -/
def old : FileTree :=
  FileTree.empty.plant ⟨"/w/s/a/a.cmp"⟩ (.file (some "<aura:component/>") 5)

/-- The same root with another component in its place. -/
def new : FileTree :=
  ((old.remove? ⟨"/w/s/a"⟩).getD old).plant ⟨"/w/s/b/b.cmp"⟩ (.file (some "<aura:component/>") 6)

def roots : NamespaceRoots :=
  ⟨[], [⟨"/w/s"⟩]⟩

/-- A workspace that excludes nothing and knows its roots. -/
def workspace : Workspace :=
  ⟨[⟨"/w"⟩], .unknown, { Settings.standard with cache := false }, ⟨[]⟩, some roots⟩

/-- The tag of the first component. -/
def tag : Tag :=
  ⟨⟨"s", "a", .colon⟩, .aura, ⟨"/w/s/a/a.cmp"⟩, 5, none, some ⟨0, 0, 0, 17⟩, [], []⟩

/-- A session that has indexed the first tree and now sees the second one. -/
def project : Project :=
  ⟨new, workspace, ⟨"lightning", .empty .lwc, ⟨.aura, [tag], ["s"]⟩⟩, [.aura]⟩

def changes : List FileChange :=
  [⟨⟨"/w/s/a/a.cmp"⟩, .deleted⟩, ⟨⟨"/w/s/b/b.cmp"⟩, .created⟩]

theorem grounded : project.index.Grounded := by
  refine ⟨⟨rfl, rfl, .nil, List.pairwise_singleton _ _, rfl, rfl, fun _ h => nomatch h⟩,
    fun d t ht => ?_⟩
  cases d with
  | lwc => cases ht
  | aura =>
      obtain rfl := List.mem_singleton.mp ht
      decide +kernel

theorem shows_old : old.Shows fun _ _ => some "<aura:component/>" := by
  refine FileTree.shows_of_entries fun e he text time hfile => ?_
  have hentries : old.entries = [(["w", "s", "a", "a.cmp"], .file (some "<aura:component/>") 5),
      (["w", "s", "a"], .folder), (["w", "s"], .folder), (["w"], .folder)] := by
    decide +kernel
  rw [hentries] at he
  simp only [List.mem_cons, List.not_mem_nil, or_false] at he
  rcases he with rfl | rfl | rfl | rfl <;> cases hfile
  rfl

theorem shows_new : new.Shows fun _ _ => some "<aura:component/>" := by
  refine FileTree.shows_of_entries fun e he text time hfile => ?_
  have hentries : new.entries = [(["w", "s", "b", "b.cmp"], .file (some "<aura:component/>") 6),
      (["w", "s", "b"], .folder), (["w", "s"], .folder), (["w"], .folder)] := by
    decide +kernel
  rw [hentries] at he
  simp only [List.mem_cons, List.not_mem_nil, or_false] at he
  rcases he with rfl | rfl | rfl | rfl <;> cases hfile
  rfl

end Sample

set_option maxRecDepth 4000 in
/-- A component that takes the place of another one. -/
theorem update_rebuilds_sample :
    ∃ q, Sample.project.UpdatesTo Sample.changes .aura q ∧
      AlikeTags (q.index.registry .aura).owned (Sample.workspace.rebuilt Sample.new .aura) := by
  have howned : [Sample.tag] = Sample.workspace.rebuilt Sample.old .aura := by decide +kernel
  have hold : Sample.workspace.searchRoots Sample.old = .ok Sample.roots := by decide +kernel
  have hnew : Sample.workspace.searchRoots Sample.new = .ok Sample.roots := by decide +kernel
  have hbefore : Update.Legible Sample.old Sample.workspace .aura Sample.roots := by
    constructor
    all_goals decide +kernel
  have hafter : Update.Legible Sample.new Sample.workspace .aura Sample.roots := by
    constructor
    all_goals decide +kernel
  have htells : Update.Tells Sample.changes Sample.workspace .aura Sample.roots Sample.old
      Sample.new := by
    constructor
    all_goals decide +kernel
  have halike : AlikeTags (Sample.project.index.registry .aura).owned
      (Sample.workspace.rebuilt Sample.old .aura) := by
    rw [← howned]
    exact AlikeTags.refl [Sample.tag]
  obtain ⟨-, hupdates, hrebuilt⟩ :=
    update_rebuilds (p := Sample.project) rfl hold hnew hbefore hafter Sample.shows_old
      Sample.shows_new Sample.grounded halike (fun hnot => absurd rfl hnot) htells
  exact ⟨_, hupdates, hrebuilt _ hupdates⟩

end Project

end ComponentAtlas
