import ComponentAtlas.Proofs.Indexing.RoundTrip
import ComponentAtlas.Proofs.Session.Footprint
import ComponentAtlas.Proofs.Session.Reuse

/-!
# Passes that resume

A pass leaves its tags in the index and in the snapshot. Whatever happens to other files, to the
other dialect and to the session, the next pass over the dialect starts from these tags: it reuses
those whose files have not changed and compiles the rest. When no file has changed it leaves what
it found, provided that the first pass took tags only for the components that their files name.
-/

namespace ComponentAtlas

open Registry (Ordered)

namespace Project

/-- The own tags of a dialect. -/
abbrev owned (p : Project) (d : Dialect) : List Tag :=
  (p.index.registry d).owned

theorem owned_congr {p q : Project} {d : Dialect} (hp : p.index.Grounded) (hq : q.index.Grounded)
    (h : p.index.own d = q.index.own d) : p.owned d = q.owned d := by
  have hordered := hp.sound.ordered d
  have hordered' := hq.sound.ordered d
  refine (Registry.ordered_owned hordered).eq_of_lookup (Registry.ordered_owned hordered')
    fun key => ?_
  rw [Registry.lookup_owned hordered, Registry.lookup_owned hordered']
  exact congrFun h key

/-- A project in which the snapshot of a dialect holds some tags. -/
def Keeps (p : Project) (d : Dialect) (tags : List Tag) : Prop :=
  ∃ folder ∈ p.session.workspace.cacheFolder?, ∃ time,
    p.files.entry? (Snapshot.file folder d) = .ok (.file (some (Snapshot.write tags)) time)

/-- What a pass with some results counts. -/
def counts (p : Project) (d : Dialect) (results : List (Bool × Option Tag)) : Stats :=
  passStats results ((p.index.registry d).staleKeys (passTags results)).length

section Counts

variable {p : Project} {d : Dialect}

/-- A pass in the order of the candidates counts their results. -/
theorem snd_pass (reuse : Bool) {roots : NamespaceRoots} (h : p.namespaceRoots = .ok roots) :
    (p.pass d reuse).2 = .ok (p.remember.counts d (p.remember.passResults d reuse roots)) := by
  unfold pass
  dsimp only
  rw [namespaceRoots_remember, h]
  have hindex : (if reuse then p.remember.markRestored d else p.remember).index =
      p.remember.index := by
    split
    · exact index_markRestored p.remember d
    · rfl
  simp only [passOver, replaceOwned, Index.replaceOwned, hindex]
  rfl

/-- Every candidate is taken over, compiled or given up. -/
theorem passStats_sum {results : List (Bool × Option Tag)} (removed : Nat)
    (h : ∀ result ∈ results, result.1 = true → result.2.isSome = true) :
    (passStats results removed).discovered = (passStats results removed).fromSnapshot +
      (passStats results removed).compiled + (passStats results removed).failed := by
  unfold passStats
  dsimp only
  induction results with
  | nil => rfl
  | cons result rest ih =>
      obtain ⟨hhead, hrest⟩ := List.forall_mem_cons.mp h
      have hsum := ih hrest
      rw [List.length_cons, List.countP_cons, List.countP_cons, List.countP_cons]
      rcases result with ⟨_ | _, _ | tag⟩
      · simpa using by omega
      · simpa using by omega
      · cases hhead rfl
      · simpa using by omega

end Counts

/-- What comes between two passes over a dialect: files change, but not its snapshot, the other
dialect is passed over, and a new session is opened on the same workspace. -/
inductive Resumes (d : Dialect) (p : Project) : Project → Prop where
  | refl : Resumes d p p
  | edit {q : Project} {t : FileTree} (h : Resumes d p q) (hnamed : t.WellNamed)
      (hkept : ∀ folder ∈ q.session.workspace.cacheFolder?,
        t.entry? (Snapshot.file folder d) = q.files.entry? (Snapshot.file folder d)) :
      Resumes d p ⟨t, q.session⟩
  | pass {q r : Project} {e : Dialect} {reuse : Bool} (h : Resumes d p q) (he : d ≠ e)
      (hpass : q.PassesTo e reuse r) : Resumes d p r
  | reopen {q : Project} (h : Resumes d p q) :
      Resumes d p ⟨q.files, .ofWorkspace q.session.workspace.forgetRoots⟩

/-- A project on a workspace that has some tags for its next pass over a dialect: in the index if
its snapshot counts as read, and else in the snapshot alone. -/
structure Remembers (p : Project) (d : Dialect) (w : Workspace) (tags : List Tag) : Prop where
  grounded : p.index.Grounded
  named : p.files.WellNamed
  workspace : p.session.workspace.forgetRoots = w.forgetRoots
  kept : p.Keeps d tags
  restored : p.session.restored.contains d = true → p.owned d = tags
  opened : ¬p.session.restored.contains d = true → p.owned d = []

namespace Remembers

variable {p q : Project} {d : Dialect} {w : Workspace} {tags : List Tag}

theorem ofWorkspace_owned (w : Workspace) (t : FileTree) (d : Dialect) :
    owned ⟨t, .ofWorkspace w⟩ d = [] := by
  cases d <;> rfl

theorem edit (h : p.Remembers d w tags) {t : FileTree} (hnamed : t.WellNamed)
    (hkept : ∀ folder ∈ p.session.workspace.cacheFolder?,
      t.entry? (Snapshot.file folder d) = p.files.entry? (Snapshot.file folder d)) :
    Remembers ⟨t, p.session⟩ d w tags := by
  obtain ⟨folder, hfolder, time, hfile⟩ := h.kept
  exact ⟨h.grounded, hnamed, h.workspace,
    ⟨folder, hfolder, time, (hkept folder hfolder).trans hfile⟩, h.restored, h.opened⟩

/-- A pass over the other dialect leaves the tags where they are. -/
theorem pass (h : p.Remembers d w tags) {e : Dialect} {reuse : Bool} (he : d ≠ e)
    (hpass : p.PassesTo e reuse q) : q.Remembers d w tags := by
  have hworkspace := hpass.workspace
  have hgrounded := hpass.grounded h.grounded h.named
  have howned : q.owned d = p.owned d :=
    owned_congr hgrounded h.grounded (hpass.own_of_ne h.grounded h.named he)
  have hrestored : q.session.restored.contains d = true ↔
      p.session.restored.contains d = true := by
    rw [hpass.restored d]
    exact or_iff_left fun hd => he hd.2
  refine ⟨hgrounded, hpass.wellNamed h.named, ?_, ?_, ?_, ?_⟩
  · rw [hworkspace]
    exact h.workspace
  · obtain ⟨folder, hfolder, time, hfile⟩ := h.kept
    refine ⟨folder, by rw [hworkspace]; exact hfolder, time, ?_⟩
    rcases hpass.files with hsame | ⟨other, -, hsave⟩
    · rw [hsame, hfile]
    · exact Snapshot.entry?_save_of_ne hsave he hfile
  · rw [howned, hrestored]
    exact h.restored
  · rw [howned, hrestored]
    exact h.opened

/-- A pass over the dialect that leaves the tags keeps them in the snapshot. -/
theorem kept_of_passesTo (h : p.Remembers d w tags) {reuse : Bool} (hpass : p.PassesTo d reuse q)
    (howned : q.owned d = tags) : q.Keeps d tags := by
  rcases hpass.files with hsame | ⟨folder, hfolder, hsave⟩
  · obtain ⟨folder, hfolder, time, hfile⟩ := h.kept
    refine ⟨folder, by rw [hpass.workspace]; exact hfolder, time, ?_⟩
    rw [hsame, hfile]
  · refine ⟨folder, by rw [hpass.workspace]; exact hfolder, 0, ?_⟩
    rw [← howned]
    exact Snapshot.entry?_of_save hsave

theorem reopen (h : p.Remembers d w tags) :
    Remembers ⟨p.files, .ofWorkspace p.session.workspace.forgetRoots⟩ d w tags where
  grounded := Index.grounded_empty _
  named := h.named
  workspace := h.workspace
  kept := h.kept
  restored hread := nomatch hread
  opened _ := ofWorkspace_owned _ _ d

/-- What comes between two passes keeps the tags for the second one. -/
theorem resumes (h : p.Remembers d w tags) (hq : p.Resumes d q) : q.Remembers d w tags := by
  induction hq with
  | refl => exact h
  | edit _ hnamed hkept ih => exact ih.edit hnamed hkept
  | pass _ he hpass ih => exact ih.pass he hpass
  | reopen _ ih => exact ih.reopen

/-- The second pass may reuse exactly these tags. -/
theorem storedTags (h : p.Remembers d w tags) (hordered : Ordered tags)
    (hfits : ∀ tag ∈ tags, tag.Fits) : p.storedTags d = tags := by
  unfold Project.storedTags
  split
  · next hread => exact h.restored hread
  · obtain ⟨folder, hfolder, time, hfile⟩ := h.kept
    rw [Option.mem_def.mp hfolder]
    dsimp only
    rw [Snapshot.loadOrEmpty, Snapshot.load_of_entry? hfile (Snapshot.readTags?_write hfits),
      Snapshot.sorted_of_ordered hordered]
    rfl

end Remembers

/-- A pass over candidates of different keys that reuses tags and saves what it leaves. -/
structure SavesTo (p : Project) (d : Dialect) (roots : NamespaceRoots) (q : Project) : Prop where
  grounded : p.index.Grounded
  named : p.files.WellNamed
  found : p.namespaceRoots = .ok roots
  keys : ((Candidate.discover p.files p.session.workspace d roots).map Candidate.key).Nodup
  passes : p.PassesTo d true q
  kept : q.Keeps d (q.owned d)
  fits : ∀ tag ∈ q.owned d, tag.Fits

/-- The tags from which a pass can start are those of the components that their files name. -/
def NamesFiles (p : Project) (d : Dialect) : Prop :=
  ∀ tag ∈ p.storedTags d, tag.file.stem? = some tag.identity.localName

/-- A later project in which no file has changed, apart from the snapshots and the folders that
are made for them, and whose namespace roots are the same. -/
structure Unedited (p : Project) (d : Dialect) (roots : NamespaceRoots) (r : Project)
    (roots' : NamespaceRoots) : Prop where
  closed : p.files.Closed
  grows : p.files.Grows r.files
  same : NamespaceRoots.SameIn p.files d roots roots'

/-- From well named tags each candidate takes one of its own key. -/
theorem NamesFiles.outcome_key {p : Project} {d : Dialect} (hnames : p.NamesFiles d)
    {c : Candidate} {tag : Tag} (htag : (c.outcome p.files d (p.storedTags d)).2 = some tag) :
    tag.key = c.key := by
  obtain ⟨-, hfile, -, hspace⟩ := Candidate.outcome_tag htag
  unfold Candidate.outcome at htag
  split at htag
  · next old hreused =>
      obtain rfl := Option.some.inj htag
      obtain ⟨hfound, -⟩ := Option.filter_eq_some_iff.mp hreused
      obtain ⟨hstored, -⟩ := Option.filter_eq_some_iff.mp hfound
      have hstem := hnames _ (Snapshot.mem_of_tagOf? hstored).1
      rw [Path.stem?_congr (Path.same_iff.mp hfile)] at hstem
      rw [Tag.key, Identity.key, Candidate.key, hspace, hstem, Option.getD_some]
  · exact (Candidate.compile?_eq_some htag).2.2.2.2

namespace SavesTo

variable {p q r : Project} {d : Dialect} {roots roots' : NamespaceRoots}

section First

variable (h : p.SavesTo d roots q)
include h

theorem grounded_after : q.index.Grounded :=
  h.passes.grounded h.grounded h.named

theorem ordered : Ordered (q.owned d) :=
  Registry.ordered_owned (h.grounded_after.sound.ordered d)

theorem remembers : q.Remembers d p.session.workspace (q.owned d) where
  grounded := h.grounded_after
  named := h.passes.wellNamed h.named
  workspace := by
    rw [h.passes.workspace]
    rfl
  kept := h.kept
  restored _ := rfl
  opened hread := absurd ((h.passes.restored d).mpr (.inr ⟨rfl, rfl⟩)) hread

/-- What the pass leaves is what its candidates bring, in any order. -/
theorem exists_results : ∃ results : List (Bool × Option Tag),
    results.Perm ((Candidate.discover p.files p.session.workspace d roots).map
        (Candidate.outcome p.files d (p.storedTags d))) ∧
      q.index.own d = Holdings.ofTags (passTags results) := by
  cases h.passes with
  | @settle found results hroots hresults =>
      obtain rfl := Except.ok.inj (hroots.symm.trans h.found)
      refine ⟨results, ?_, own_settle (p := p.remember) h.grounded.sound h.named hresults⟩
      rw [← Candidate.resolve_discover h.named h.keys]
      exact hresults

/-- Each tag that the pass leaves is the result of a candidate. -/
theorem outcome_of_owned {tag : Tag} (htag : tag ∈ q.owned d) :
    ∃ c ∈ Candidate.discover p.files p.session.workspace d roots,
      (c.outcome p.files d (p.storedTags d)).2 = some tag := by
  obtain ⟨results, hresults, hown⟩ := h.exists_results
  have hheld := (Registry.mem_owned_iff (h.grounded_after.sound.ordered d)).mp htag
  have hmem := (Holdings.ofTags_mem ((congrFun hown tag.key).symm.trans hheld)).1
  obtain ⟨result, hresult, hsome⟩ := mem_passTags.mp hmem
  obtain ⟨c, hc, rfl⟩ := List.mem_map.mp (hresults.mem_iff.mp hresult)
  exact ⟨c, hc, hsome⟩

theorem eq_of_same {tag other : Tag} (htag : tag ∈ q.owned d) (hother : other ∈ q.owned d)
    (hsame : tag.file.same other.file = true) : tag = other := by
  obtain ⟨c, hc, hresult⟩ := h.outcome_of_owned htag
  obtain ⟨c', hc', hresult'⟩ := h.outcome_of_owned hother
  have hpath := Path.same_iff.mp (Candidate.outcome_tag hresult).2.1
  have hpath' := Path.same_iff.mp (Candidate.outcome_tag hresult').2.1
  have hfiles : c.path.components = c'.path.components :=
    hpath.symm.trans ((Path.same_iff.mp hsame).trans hpath')
  obtain rfl := Candidate.eq_of_same h.named h.keys hc hc' (Path.same_iff.mpr hfiles)
  exact Option.some.inj (hresult.symm.trans hresult')

end First

/-- A later candidate takes the tag that the pass left of its file, if that has its time. -/
theorem takes (h : p.SavesTo d roots q) (hr : r.Remembers d p.session.workspace (q.owned d))
    {c : Candidate} (hc : c ∈ Candidate.discover r.files r.session.workspace d roots') :
    c.Takes r.files d (Candidate.discover p.files p.session.workspace d roots) (q.owned d)
      (c.outcome r.files d (q.owned d)) := by
  have hunique : ∀ tag ∈ q.owned d, ∀ other ∈ q.owned d,
      tag.file.same other.file = true → tag = other :=
    fun tag htag other hother => h.eq_of_same htag hother
  have hsettings : r.session.workspace.settings = p.session.workspace.settings := by
    have hforgotten := congrArg Workspace.settings hr.workspace
    exact hforgotten
  obtain ⟨root, -, name, ext, hstands⟩ := Candidate.stands_of_mem_discover hr.named hc
  cases hreused : c.reused? d (q.owned d) with
  | some tag =>
      rw [Candidate.outcome, hreused]
      obtain ⟨hfound, -⟩ := Option.filter_eq_some_iff.mp hreused
      obtain ⟨htag, htime⟩ := Option.filter_eq_some_iff.mp hfound
      obtain ⟨hmem, hfile⟩ := (Snapshot.tagOf?_eq_some hunique).mp htag
      obtain ⟨old, hold, hresult⟩ := h.outcome_of_owned hmem
      obtain ⟨-, hsame, hmodified, -⟩ := Candidate.outcome_tag hresult
      refine .reused hold ?_ (hmodified.symm.trans (by simpa using htime)) hmem hsame
      rw [← Path.same_congr_left (Path.same_iff.mp hsame)]
      exact hfile
  | none =>
      rw [Candidate.outcome, hreused]
      refine .compiled fun old hold hpath htime tag htag hfile => ?_
      obtain ⟨old', hold', hresult⟩ := h.outcome_of_owned htag
      obtain ⟨hdialect, hsame, hmodified, hspace⟩ := Candidate.outcome_tag hresult
      obtain rfl : old = old' := by
        refine Candidate.eq_of_same h.named h.keys hold hold' ?_
        rw [← Path.same_congr_left (Path.same_iff.mp hfile)]
        exact hsame
      obtain ⟨root', -, name', ext', hstands'⟩ := Candidate.stands_of_mem_discover h.named hold
      have hspaces := hstands'.space_congr hstands hsettings (Path.same_iff.mp hpath)
      have hfound : Snapshot.tagOf? (q.owned d) c.path = some tag := by
        refine (Snapshot.tagOf?_eq_some hunique).mpr ⟨htag, ?_⟩
        rw [Path.same_congr_left (Path.same_iff.mp hfile)]
        exact hpath
      rw [Candidate.reused?, hfound] at hreused
      simp [Candidate.accepts, hdialect, hspace, hspaces, hmodified, htime] at hreused

/-- A pass that starts from well named tags leaves the tag of every candidate that has one. -/
theorem mem_owned (h : p.SavesTo d roots q) (hnames : p.NamesFiles d) {c : Candidate}
    (hc : c ∈ Candidate.discover p.files p.session.workspace d roots) {tag : Tag}
    (htag : (c.outcome p.files d (p.storedTags d)).2 = some tag) : tag ∈ q.owned d := by
  obtain ⟨results, hresults, hown⟩ := h.exists_results
  have hmem : tag ∈ passTags results :=
    mem_passTags.mpr ⟨_, hresults.mem_iff.mpr (List.mem_map_of_mem hc), htag⟩
  refine (Registry.mem_owned_iff (h.grounded_after.sound.ordered d)).mpr ?_
  change q.index.own d tag.key = some tag
  rw [hown]
  cases hheld : Holdings.ofTags (passTags results) tag.key with
  | none => exact absurd rfl (Holdings.ofTags_eq_none.mp hheld tag hmem)
  | some other =>
      -- Another tag of the key would be that of another candidate of the key.
      obtain ⟨hother, hkey⟩ := Holdings.ofTags_mem hheld
      obtain ⟨result, hresult, hsome⟩ := mem_passTags.mp hother
      obtain ⟨c', hc', rfl⟩ := List.mem_map.mp (hresults.mem_iff.mp hresult)
      have hkeys : c.key = c'.key := by
        rw [← hnames.outcome_key htag, ← hnames.outcome_key hsome, hkey]
      obtain rfl := List.inj_on_of_nodup_map h.keys hc hc' hkeys
      exact hsome.symm.trans htag

section Again

variable (h : p.SavesTo d roots q) (hnames : p.NamesFiles d)
  (hr : r.Remembers d p.session.workspace (q.owned d)) (hu : p.Unedited d roots r roots')
include h hnames hr hu

omit hnames in
theorem discover_again : Candidate.discover r.files r.session.workspace d roots' =
    Candidate.discover p.files p.session.workspace d roots := by
  calc Candidate.discover r.files r.session.workspace d roots'
      = Candidate.discover r.files r.session.workspace.forgetRoots d roots' := rfl
    _ = Candidate.discover r.files p.session.workspace.forgetRoots d roots' := by
        rw [hr.workspace]
    _ = Candidate.discover p.files p.session.workspace d roots :=
        hu.same.discover hu.grows hu.closed h.named hr.named p.session.workspace

/-- A candidate that did not change takes its tag again, or cannot be compiled again. -/
theorem outcome_again {c : Candidate}
    (hc : c ∈ Candidate.discover r.files r.session.workspace d roots') :
    (∃ tag ∈ q.owned d, tag.file.same c.path = true ∧
        c.outcome r.files d (q.owned d) = (true, some tag)) ∨
      (∀ tag ∈ q.owned d, ¬tag.file.same c.path = true) ∧
        c.outcome r.files d (q.owned d) = (false, none) := by
  have htakes := h.takes hr hc
  rw [h.discover_again hr hu] at hc
  generalize c.outcome r.files d (q.owned d) = result at htakes ⊢
  cases htakes with
  | reused hold hpath htime htag hfile =>
      refine .inl ⟨_, htag, ?_, rfl⟩
      rw [Path.same_congr_left (Path.same_iff.mp hfile)]
      exact hpath
  | compiled hnone =>
      have hleft : ∀ tag ∈ q.owned d, ¬tag.file.same c.path = true :=
        hnone c hc (Path.same_refl _) rfl
      refine .inr ⟨hleft, ?_⟩
      have hfirst : (c.outcome p.files d (p.storedTags d)).2 = none := by
        refine Option.eq_none_iff_forall_ne_some.mpr fun tag htag => ?_
        exact hleft tag (h.mem_owned hnames hc htag) (Candidate.outcome_tag htag).2.1
      obtain ⟨root, -, name, ext, hstands⟩ := Candidate.stands_of_mem_discover h.named hc
      rw [Candidate.compile?_grows hu.grows hstands]
      unfold Candidate.outcome at hfirst
      split at hfirst
      · cases hfirst
      · exact congrArg (Prod.mk false) hfirst

variable {results : List (Bool × Option Tag)}
  (hresults : results.Perm ((Candidate.discover r.files r.session.workspace d roots').map
    (Candidate.outcome r.files d (q.owned d))))
include hresults

/-- A pass over unchanged candidates brings the tags that are there. -/
theorem mem_passTags_again {tag : Tag} : tag ∈ passTags results ↔ tag ∈ q.owned d := by
  rw [mem_passTags]
  constructor
  · rintro ⟨result, hmem, hsome⟩
    obtain ⟨c, hc, rfl⟩ := List.mem_map.mp (hresults.mem_iff.mp hmem)
    rcases h.outcome_again hnames hr hu hc with ⟨old, hold, -, heq⟩ | ⟨-, heq⟩
    · rw [heq] at hsome
      obtain rfl := Option.some.inj hsome
      exact hold
    · rw [heq] at hsome
      cases hsome
  · intro htag
    obtain ⟨c, hc, hresult⟩ := h.outcome_of_owned htag
    have hfile := (Candidate.outcome_tag hresult).2.1
    rw [← h.discover_again hr hu] at hc
    refine ⟨_, hresults.mem_iff.mpr (List.mem_map_of_mem hc), ?_⟩
    rcases h.outcome_again hnames hr hu hc with
      ⟨old, hold, hpath, heq⟩ | ⟨hnone, -⟩
    · rw [heq, h.eq_of_same htag hold ?_]
      rw [Path.same_congr_left (Path.same_iff.mp hfile), Path.same_comm]
      exact hpath
    · exact absurd hfile (hnone tag htag)

theorem compiled_again : (r.counts d results).compiled = 0 := by
  refine List.countP_eq_zero.mpr fun result hmem => ?_
  obtain ⟨c, hc, rfl⟩ := List.mem_map.mp (hresults.mem_iff.mp hmem)
  rcases h.outcome_again hnames hr hu hc with ⟨tag, -, -, heq⟩ | ⟨-, heq⟩
  · rw [heq]
    exact Bool.false_ne_true
  · rw [heq]
    exact Bool.false_ne_true

theorem removed_again : (r.counts d results).removed = 0 := by
  have howned : ∀ tag ∈ r.owned d, tag ∈ passTags results := by
    intro tag htag
    rw [h.mem_passTags_again hnames hr hu hresults]
    by_cases hread : r.session.restored.contains d = true
    · rw [← hr.restored hread]
      exact htag
    · rw [hr.opened hread] at htag
      cases htag
  refine List.length_eq_zero_iff.mpr (List.filter_eq_nil_iff.mpr fun key hkey => ?_)
  obtain ⟨tag, htag, rfl⟩ := List.mem_map.mp hkey
  have hmem : tag.key ∈ (passTags results).map Tag.key := List.mem_map_of_mem (howned tag htag)
  simpa using hmem

theorem own_again : Holdings.ofTags (passTags results) = q.index.own d := by
  have hmem : ∀ tag, tag ∈ passTags results ↔ q.index.own d tag.key = some tag := fun tag =>
    (h.mem_passTags_again hnames hr hu hresults).trans
      (Registry.mem_owned_iff (h.grounded_after.sound.ordered d))
  funext key
  cases hheld : Holdings.ofTags (passTags results) key with
  | some tag =>
      obtain ⟨htag, rfl⟩ := Holdings.ofTags_mem hheld
      exact ((hmem tag).mp htag).symm
  | none =>
      refine (Option.eq_none_iff_forall_ne_some.mpr fun tag htag => ?_).symm
      have hkey : tag.key = key := Registry.own_key htag
      rw [← hkey] at htag
      exact Holdings.ofTags_eq_none.mp hheld tag ((hmem tag).mpr htag) hkey

end Again

theorem passResults_eq (h : p.SavesTo d roots q)
    (hr : r.Remembers d p.session.workspace (q.owned d))
    (hkeys : ((Candidate.discover r.files r.session.workspace d roots').map Candidate.key).Nodup) :
    r.remember.passResults d true roots' =
      (Candidate.discover r.files r.session.workspace d roots').map
        (Candidate.outcome r.files d (q.owned d)) := by
  rw [← hr.storedTags h.ordered h.fits, ← Candidate.resolve_discover hr.named hkeys]
  rfl

/-- The next pass over a dialect reuses exactly the tags of the candidates whose files have not
changed, compiles every other candidate, and counts each of them once. If no file has changed, and
the first pass started from tags that are named after their files, it leaves the own tags and the
text of the snapshot as they are, compiles nothing anew and removes nothing, in whatever order its
tasks complete. -/
theorem resumed (h : p.SavesTo d roots q) (hq : q.Resumes d r)
    (hroots : r.namespaceRoots = .ok roots')
    (hkeys : ((Candidate.discover r.files r.session.workspace d roots').map Candidate.key).Nodup) :
    List.Forall₂
        (Candidate.Takes r.files d
          (Candidate.discover p.files p.session.workspace d roots) (q.owned d))
        (Candidate.discover r.files r.session.workspace d roots')
        (r.remember.passResults d true roots') ∧
      ∀ results : List (Bool × Option Tag),
        results.Perm (r.remember.passResults d true roots') →
          let stats := r.remember.counts d results
          stats.discovered = stats.fromSnapshot + stats.compiled + stats.failed ∧
          (p.NamesFiles d → p.Unedited d roots r roots' →
            let s := r.remember.settle d true results
            s.owned d = q.owned d ∧ s.Keeps d (q.owned d) ∧
              stats.compiled = 0 ∧ stats.removed = 0) := by
  have hr := h.remembers.resumes hq
  rw [h.passResults_eq hr hkeys]
  refine ⟨?_, fun results hresults => ⟨passStats_sum _ ?_, fun hnames hu => ?_⟩⟩
  · rw [List.forall₂_map_right_iff, List.forall₂_same]
    exact fun c hc => h.takes hr hc
  · intro result hmem hreused
    obtain ⟨c, -, rfl⟩ := List.mem_map.mp (hresults.mem_iff.mp hmem)
    unfold Candidate.outcome at hreused ⊢
    split at hreused
    · rfl
    · cases hreused
  · have hordered := hresults
    rw [← h.passResults_eq hr hkeys] at hordered
    have hpass : r.PassesTo d true (r.remember.settle d true results) := .settle hroots hordered
    have hown := own_settle (p := r.remember) hr.grounded.sound hr.named hordered
    have howned : (r.remember.settle d true results).owned d = q.owned d := by
      refine owned_congr (hpass.grounded hr.grounded hr.named) h.grounded_after ?_
      rw [hown, h.own_again hnames hr hu hresults]
    exact ⟨howned, hr.kept_of_passesTo hpass howned, h.compiled_again hnames hr hu hresults,
      h.removed_again hnames hr hu hresults⟩

end SavesTo

/-- A new session on what a pass leaves finds nothing edited, if the pass used the namespace roots
that a search finds. -/
theorem SavesTo.unedited_reopened {p q : Project} {d : Dialect} {roots : NamespaceRoots}
    (h : p.SavesTo d roots q) (hclosed : p.files.Closed)
    (hstraight : p.session.workspace.Straight p.files)
    (hsearch : p.session.workspace.searchRoots p.files = .ok roots) :
    let r : Project := ⟨q.files, .ofWorkspace q.session.workspace.forgetRoots⟩
    ∃ roots', r.namespaceRoots = .ok roots' ∧ p.Unedited d roots r roots' := by
  have hgrows := (h.passes.grows hclosed).1
  obtain ⟨roots', hfind, hsame⟩ := NamespaceRoots.SameIn.of_find hgrows hclosed h.named
    (h.passes.wellNamed h.named) (fun root hroot => (hstraight root hroot).1)
    (fun root hroot => (hstraight root hroot).2) hsearch d
  refine ⟨roots', ?_, hclosed, hgrows, hsame⟩
  have hroots : q.session.workspace.forgetRoots.namespaceRoots q.files = .ok roots' := by
    rw [h.passes.workspace]
    exact hfind
  exact hroots

namespace Resumption

/-- The tag of a component without members. -/
def tag (name : String) (file : Path) : Tag :=
  ⟨⟨"c", name, .colon⟩, .aura, file, 5, none, some ⟨0, 0, 0, 17⟩, [], []⟩

theorem fits_tag (name : String) (file : Path) : (tag name file).Fits where
  modifiedAt := show 5 < timeBound by decide
  declaration := by
    rintro s ⟨⟩
    exact ⟨by decide, by decide, by decide, by decide⟩
  attributes := nofun
  members := nofun

/-- The files of two components, of which the first can be compiled, and of a snapshot. -/
def files (b snapshot : Option String) : FileTree :=
  ((FileTree.empty.plant ⟨"/c/indexes/aura/custom-components.json"⟩ (.file snapshot 1)).plant
    ⟨"/x/aura/a/a.cmp"⟩ (.file (some "<aura:component/>") 5)).plant ⟨"/y/aura/b/b.cmp"⟩ (.file b 5)

/-- The namespace roots of both components. -/
def roots : NamespaceRoots :=
  ⟨[], [⟨"/x/aura"⟩, ⟨"/y/aura"⟩]⟩

/-- A workspace of both components, with the snapshots outside of it. -/
def workspace : Workspace :=
  ⟨[⟨"/x"⟩, ⟨"/y"⟩], .unknown, { Settings.standard with cacheRoot := "/c" }, ⟨[]⟩, none⟩

def project (t : FileTree) : Project :=
  ⟨t, .ofWorkspace workspace⟩

/-- What a pass in the order of the candidates leaves. -/
def passed (p : Project) : Project :=
  (p.pass .aura true).1

/-- A new session on the same files. -/
def reopened (p : Project) : Project :=
  ⟨p.files, .ofWorkspace p.session.workspace.forgetRoots⟩

/-- A pass that leaves one tag, and in the file of the snapshot another time. -/
theorem savesTo_passed {t : FileTree} {name : String} {file : Path} (hnamed : t.WellNamed)
    (hfound : (project t).namespaceRoots = .ok roots)
    (hkeys : (Candidate.discover t workspace .aura roots).map Candidate.key = ["c:a", "c:b"])
    (howned : (passed (project t)).owned .aura = [tag name file])
    (hsaved : (passed (project t)).files.modifiedAt? (Snapshot.file ⟨"/c"⟩ .aura) ≠
      t.modifiedAt? (Snapshot.file ⟨"/c"⟩ .aura)) :
    (project t).SavesTo .aura roots (passed (project t)) := by
  have hpass : (project t).PassesTo .aura true (passed (project t)) :=
    passesTo_pass (project t) .aura true hfound
  have hdistinct : ((Candidate.discover t workspace .aura roots).map Candidate.key).Nodup := by
    rw [hkeys]
    decide
  refine ⟨Index.grounded_empty _, hnamed, hfound, hdistinct, hpass, ?_, ?_⟩
  · rcases hpass.files with hsame | ⟨folder, hfolder, hsave⟩
    · exact absurd (by rw [hsame]; rfl) hsaved
    · exact ⟨folder, by rw [hpass.workspace]; exact hfolder, 0, Snapshot.entry?_of_save hsave⟩
  · rw [howned]
    exact List.forall_mem_singleton.mpr (fits_tag name file)

/-- The second component cannot be read, and nor can the snapshot. -/
def unread : Project :=
  project (files none none)

theorem unread_facts : unread.files.Closed ∧ unread.files.WellNamed ∧
    unread.namespaceRoots = .ok roots ∧ unread.storedTags .aura = [] ∧
      (Candidate.discover unread.files workspace .aura roots).map Candidate.key = ["c:a", "c:b"] ∧
        ∀ root ∈ roots.aura, unread.files.isFolder root = true := by
  decide +kernel

theorem passed_unread : (passed unread).owned .aura = [tag "a" ⟨"/x/aura/a/a.cmp"⟩] ∧
    (passed unread).files.modifiedAt? (Snapshot.file ⟨"/c"⟩ .aura) ≠
      unread.files.modifiedAt? (Snapshot.file ⟨"/c"⟩ .aura) ∧
        (reopened (passed unread)).namespaceRoots = .ok roots ∧
          (Candidate.discover (passed unread).files
            (passed unread).session.workspace.forgetRoots .aura roots).map Candidate.key =
              ["c:a", "c:b"] := by
  decide +kernel

/-- The second component is there, and the snapshot has its name for the file of the first one. -/
def misnamed : Project :=
  project (files (some "<aura:component/>")
    (some (Stored.writeTags [{ tag "b" ⟨"/x/aura/a/a.cmp"⟩ with declaration := none }])))

theorem misnamed_facts : misnamed.files.Closed ∧ misnamed.files.WellNamed ∧
    misnamed.namespaceRoots = .ok roots ∧
      (Candidate.discover misnamed.files workspace .aura roots).map Candidate.key =
        ["c:a", "c:b"] ∧ ∀ root ∈ roots.aura, misnamed.files.isFolder root = true := by
  decide +kernel

theorem passed_misnamed : (passed misnamed).owned .aura = [tag "b" ⟨"/y/aura/b/b.cmp"⟩] ∧
    (passed misnamed).files.modifiedAt? (Snapshot.file ⟨"/c"⟩ .aura) ≠
      misnamed.files.modifiedAt? (Snapshot.file ⟨"/c"⟩ .aura) ∧
        (Candidate.discover (passed misnamed).files (passed misnamed).session.workspace .aura
          roots).map Candidate.key = ["c:a", "c:b"] ∧
            ((passed misnamed).pass .aura true).2 = .ok ⟨2, 1, 1, 0, 0, 0⟩ := by
  decide +kernel

end Resumption

open Resumption

/-- A new session takes over the tag of the component that can be compiled. -/
theorem SavesTo.resumed_sample :
    let r := reopened (passed unread)
    (r.pass .aura true).1.owned .aura = [tag "a" ⟨"/x/aura/a/a.cmp"⟩] ∧
      ∃ stats, (r.pass .aura true).2 = .ok stats ∧ stats.compiled = 0 := by
  obtain ⟨hclosed, hnamed, hfound, hstored, hkeys, hfolders⟩ := unread_facts
  obtain ⟨howned, hsaved, hroots, hkeys'⟩ := passed_unread
  have hfirst : unread.SavesTo .aura roots (passed unread) :=
    savesTo_passed hnamed hfound hkeys howned hsaved
  have hreopened : (passed unread).Resumes .aura (reopened (passed unread)) :=
    .reopen .refl
  have hnames : unread.NamesFiles .aura := by
    intro tag htag
    rw [hstored] at htag
    cases htag
  have hunedited : unread.Unedited .aura roots (reopened (passed unread)) roots :=
    ⟨hclosed, (hfirst.passes.grows hclosed).1, .of_standing hfolders⟩
  have hdistinct : ((Candidate.discover (passed unread).files
      (passed unread).session.workspace.forgetRoots .aura roots).map Candidate.key).Nodup := by
    rw [hkeys']
    decide
  have hresumed := hfirst.resumed hreopened hroots hdistinct
  obtain ⟨hleft, -, hcompiled, -⟩ := (hresumed.2 _ (List.Perm.refl _)).2 hnames hunedited
  rw [← fst_pass _ .aura true hroots] at hleft
  exact ⟨hleft.trans howned, _, snd_pass true hroots, hcompiled⟩

/-- A snapshot that has the name of one component for the file of another one hides the latter in
the first pass, so that the second pass compiles a file that has not changed. -/
theorem SavesTo.recompiles_misnamed :
    let q := passed misnamed
    misnamed.SavesTo .aura roots q ∧ misnamed.Unedited .aura roots q roots ∧
      q.namespaceRoots = .ok roots ∧
        ((Candidate.discover q.files q.session.workspace .aura roots).map Candidate.key).Nodup ∧
          ∃ stats, (q.pass .aura true).2 = .ok stats ∧ stats.compiled = 1 := by
  obtain ⟨hclosed, hnamed, hfound, hkeys, hfolders⟩ := misnamed_facts
  obtain ⟨howned, hsaved, hkeys', hstats⟩ := passed_misnamed
  have hfirst := savesTo_passed hnamed hfound hkeys howned hsaved
  refine ⟨hfirst, ⟨hclosed, (hfirst.passes.grows hclosed).1, .of_standing hfolders⟩,
    hfirst.passes.namespaceRoots hfound, ?_, _, hstats, rfl⟩
  rw [hkeys']
  decide

end Project

end ComponentAtlas
