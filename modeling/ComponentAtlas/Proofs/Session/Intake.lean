import ComponentAtlas.Proofs.Indexing.Snapshots
import ComponentAtlas.Proofs.Session.Updates

/-!
# What calls take in

A pass or an update changes the index by one batch, whose tags were stored or are compiled from
entry files, and it changes the files only by saving the tags that it then holds. What holds of
stored and of compiled tags therefore holds of all tags after any calls.
-/

namespace ComponentAtlas

namespace Project

/-- A tag that a call may bring into the registry of a dialect: a stored one, or what an entry file
compiles to at its time. -/
inductive Offers (p : Project) (d : Dialect) (tag : Tag) : Prop where
  | stored (hstored : tag ∈ p.storedTags d) (hdialect : tag.dialect = d)
      (hentry : tag.file.isEntry d.entryExtensions = true)
  | compiled {c : Candidate} {text : Option String}
      (hentry : c.path.isEntry d.entryExtensions = true)
      (hfile : p.files.entry? c.path = .ok (.file text c.modifiedAt))
      (hcompile : c.compile? p.files d = some tag)

/-- What a call may do for a dialect. -/
structure Takes (p : Project) (d : Dialect) (q : Project) : Prop where
  index : ∃ changes, q.index = (p.index.commit d changes).1 ∧
    ∀ tag, .upsert tag ∈ changes → p.Offers d tag
  files : q.files = p.files ∨ ∃ folder, p.session.workspace.cacheFolder? = some folder ∧
    Snapshot.save p.files folder d (q.index.registry d).owned = .ok q.files
  cacheFolder : q.session.workspace.cacheFolder? = p.session.workspace.cacheFolder?

section Calls

variable {p q : Project} {d : Dialect}

theorem Offers.entry {tag : Tag} (h : p.Offers d tag) :
    tag.dialect = d ∧ tag.file.isEntry d.entryExtensions = true := by
  cases h with
  | stored hstored hdialect hentry => exact ⟨hdialect, hentry⟩
  | compiled hentry hfile hcompile =>
      obtain ⟨hdialect, hpath, -⟩ := Candidate.compile?_eq_some hcompile
      exact ⟨hdialect, by rw [hpath, hentry]⟩

/-- What holds of the own tags and of the tags in the snapshots holds of all stored tags. -/
theorem forall_mem_storedTags {P : Dialect → Tag → Prop}
    (hown : ∀ tag ∈ (p.index.registry d).owned, P d tag)
    (hlists : ∀ folder, p.session.workspace.cacheFolder? = some folder →
      Snapshot.Lists P p.files folder) : ∀ tag ∈ p.storedTags d, P d tag := by
  intro tag htag
  unfold Project.storedTags at htag
  split at htag
  · exact hown tag htag
  · split at htag
    · next folder hfolder => exact (hlists folder hfolder).of_loadOrEmpty tag htag
    · cases htag

section Taken

variable (h : p.Takes d q)
include h

theorem Takes.grounded (hp : p.index.Grounded) : q.index.Grounded := by
  obtain ⟨changes, hindex, hoffers⟩ := h.index
  rw [hindex]
  exact hp.commit fun tag htag => (hoffers tag htag).entry

theorem Takes.wellNamed (ht : p.files.WellNamed) : q.files.WellNamed := by
  rcases h.files with hsame | ⟨folder, -, hsave⟩
  · rw [hsame]
    exact ht
  · exact Snapshot.wellNamed_save hsave ht

/-- What the snapshots list afterwards was listed before, or is held. -/
theorem Takes.lists {P : Dialect → Tag → Prop} {folder : Path}
    (hlists : Snapshot.Lists P p.files folder)
    (hown : ∀ tag ∈ (q.index.registry d).owned, P d tag) : Snapshot.Lists P q.files folder := by
  rcases h.files with hsame | ⟨other, -, hsave⟩
  · rw [hsame]
    exact hlists
  · exact hlists.save hsave hown

end Taken

/-- A call that leaves the index and the files takes nothing in. -/
theorem takes_of_index (hindex : q.index = p.index) (hfiles : q.files = p.files)
    (hcache : q.session.workspace.cacheFolder? = p.session.workspace.cacheFolder?) :
    p.Takes d q := by
  refine ⟨⟨[], ?_, fun tag htag => nomatch htag⟩, .inl hfiles, hcache⟩
  rw [hindex, Index.commit_nil]

/-- What is offered does not depend on the namespace roots that are known. -/
theorem Offers.of_remember {tag : Tag} (h : p.remember.Offers d tag) : p.Offers d tag := by
  cases h with
  | stored hstored hdialect hentry => exact .stored hstored hdialect hentry
  | compiled hentry hfile hcompile => exact .compiled hentry hfile hcompile

theorem Takes.of_remember (h : p.remember.Takes d q) : p.Takes d q := by
  obtain ⟨changes, hindex, hoffers⟩ := h.index
  exact ⟨⟨changes, hindex, fun tag htag => (hoffers tag htag).of_remember⟩, h.files,
    h.cacheFolder⟩

/-- The tags of a pass are offered to it. -/
theorem offers_of_results {reuse : Bool} {roots : NamespaceRoots}
    {results : List (Bool × Option Tag)} (ht : p.files.WellNamed)
    (hresults : results.Perm (p.passResults d reuse roots)) {tag : Tag}
    (htag : tag ∈ passTags results) : p.Offers d tag := by
  obtain ⟨hdialect, hentry⟩ := tags_of_results ht hresults tag htag
  obtain ⟨result, hmem, hresult⟩ := mem_passTags.mp htag
  obtain ⟨c, hc, hres⟩ := Candidate.exists_of_mem_resolve (hresults.mem_iff.mp hmem)
  obtain ⟨root, -, name, ext, hstands⟩ := Candidate.stands_of_mem_discover ht hc
  cases hres with
  | compiled =>
      obtain ⟨text, hfile⟩ := hstands.file
      exact .compiled hstands.isEntry hfile hresult
  | reused hstored =>
      obtain rfl := Option.some.inj hresult
      cases reuse with
      | false => cases hstored
      | true => exact .stored hstored hdialect hentry

theorem PassesTo.takes {reuse : Bool} (h : p.PassesTo d reuse q) (ht : p.files.WellNamed) :
    p.Takes d q := by
  have hindex : ∃ changes, q.index = (p.index.commit d changes).1 ∧
      ∀ tag, .upsert tag ∈ changes → p.Offers d tag := by
    cases h with
    | @settle roots results hroots hresults =>
        refine ⟨_, index_settle p.remember d reuse results, fun tag htag => ?_⟩
        have hoffers := offers_of_results (p := p.remember) ht hresults
          (Registry.upsert_mem_replacement htag)
        exact hoffers.of_remember
  refine ⟨hindex, h.files, ?_⟩
  rw [h.workspace]
  rfl

theorem UpdatesTo.takes {changes : List FileChange} (h : p.UpdatesTo changes d q)
    (ht : p.files.WellNamed) : p.Takes d q := by
  cases h with
  | pass hroots hasks hpass => exact (hpass.takes ht).of_remember
  | @batch roots outcomes tags hroots hasks houtcomes htags =>
      refine ⟨⟨Update.batchOf p d changes outcomes tags, rfl, fun tag htag => ?_⟩, .inl rfl, rfl⟩
      obtain ⟨e, -, path, houtcome⟩ := Update.outcome_of_upsert houtcomes htags htag
      obtain ⟨hentry, -, g, text, time, -, -, hfile, hcompile⟩ := Update.outcome?_eq_some houtcome
      let c : Candidate := ⟨e.path, p.session.workspace.namespaceForRoot g d, time⟩
      exact .compiled (c := c) hentry hfile hcompile

end Calls

end Project

end ComponentAtlas
