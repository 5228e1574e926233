import ComponentAtlas.Proofs.Session.Batches
import ComponentAtlas.Proofs.Session.Failing
import ComponentAtlas.Proofs.Session.Incremental

/-!
# Batches that report nothing

The counts of a batch are all zero when it found nothing and removed nothing, and then the index is
as it was. A new search for namespace roots breaks this: the counts are those of the full index
that follows, and what the updates before it removed is not counted. A batch that reports nothing
behind a new search leaves no own tags at all.
-/

namespace ComponentAtlas

namespace Project

/-- An operation on both dialects that succeeds has succeeded in each of them. -/
theorem forBoth_eq_ok {p : Project} {op : Project → Dialect → Attempt Stats} {s : Summary}
    (h : (p.forBoth op).2 = .ok s) :
    (op p .lwc).2 = .ok s.lwc ∧ (op (op p .lwc).1 .aura).2 = .ok s.aura ∧
      (p.forBoth op).1 = (op (op p .lwc).1 .aura).1 := by
  unfold forBoth at h ⊢
  dsimp only at h ⊢
  cases hlwc : (op p .lwc).2 with
  | error e =>
      rw [hlwc] at h
      cases h
  | ok lwc =>
      rw [hlwc] at h
      cases haura : (op (op p .lwc).1 .aura).2 with
      | error e =>
          rw [haura] at h
          cases h
      | ok aura =>
          rw [haura] at h
          cases h
          exact ⟨rfl, rfl, rfl⟩

section Pass

variable {p q : Project} {d : Dialect} {reuse : Bool}

theorem passStats_eq_default {results : List (Bool × Option Tag)} {removed : Nat}
    (h : passStats results removed = {}) : results = [] ∧ removed = 0 :=
  ⟨List.length_eq_zero_iff.mp (congrArg Stats.discovered h), congrArg Stats.removed h⟩

/-- A pass that finds nothing and removes nothing had no own tag to lose. -/
theorem pass_default (h : (p.pass d reuse).2 = .ok {}) :
    (p.pass d reuse).1.index = p.index ∧ p.owned d = [] := by
  cases hroots : p.namespaceRoots with
  | error e =>
      rw [pass_of_error hroots] at h
      cases h
  | ok r =>
      have hcounts : p.remember.counts d (p.remember.passResults d reuse r) = {} :=
        Except.ok.inj ((snd_pass reuse hroots).symm.trans h)
      obtain ⟨hresults, hstale⟩ := passStats_eq_default hcounts
      rw [hresults, List.length_eq_zero_iff] at hstale
      have hnone : p.remember.owned d = [] := by
        simpa [Registry.staleKeys, passTags] using hstale
      refine ⟨?_, hnone⟩
      rw [fst_pass p d reuse hroots, index_settle, hresults]
      exact Index.clearOwned_of_nil hnone

/-- A full index that finds nothing and removes nothing had no own tag to lose. -/
theorem fullIndex_default (h : p.fullIndex.2 = .ok {}) :
    p.fullIndex.1.index = p.index ∧ ∀ d, p.owned d = [] := by
  obtain ⟨hlwc, haura, hboth⟩ := forBoth_eq_ok h
  obtain ⟨hfirst, hnone⟩ := pass_default hlwc
  obtain ⟨hsecond, hnone'⟩ := pass_default (p := (p.pass .lwc true).1) haura
  refine ⟨?_, fun d => ?_⟩
  · have hlast : p.fullIndex.1 = ((p.pass .lwc true).1.pass .aura true).1 := hboth
    rw [hlast]
    exact hsecond.trans hfirst
  · cases d with
    | lwc => exact hnone
    | aura =>
        rw [owned, hfirst] at hnone'
        exact hnone'

/-- A pass that starts and ends without own tags leaves the index. -/
theorem PassesTo.index_of_nil (h : p.PassesTo d reuse q) (hp : p.index.Sound)
    (ht : p.files.WellNamed) (hbefore : p.owned d = []) (hafter : q.index.own d = Holdings.none) :
    q.index = p.index := by
  cases h with
  | @settle roots results hroots hresults =>
      have hown := own_settle (p := p.remember) hp ht hresults
      have htags : passTags results = [] := by
        refine List.eq_nil_iff_forall_not_mem.mpr fun t hmem => ?_
        have hheld : Holdings.ofTags (passTags results) t.key = none := by
          rw [← hown, hafter]
          rfl
        exact Holdings.ofTags_eq_none.mp hheld t hmem rfl
      rw [index_settle, htags]
      exact Index.clearOwned_of_nil hbefore

end Pass

end Project

namespace Update

section Batch

variable {p : Project} {d : Dialect} {r : NamespaceRoots} {changes : List FileChange}

/-- A change that is not one of an entry file does nothing. -/
theorem step_of_not_isEntry {c : FileChange} (h : ¬c.path.isEntry d.entryExtensions = true)
    (u : Update) : step p d r u c = u := by
  simp [step, h]

theorem discovered_step (u : Update) (c : FileChange) : (step p d r u c).stats.discovered =
    u.stats.discovered + if c.path.isEntry d.entryExtensions then 1 else 0 := by
  by_cases hentry : c.path.isEntry d.entryExtensions = true
  · unfold step
    by_cases hkind : c.kind = .deleted
    · simp [hentry, hkind, delete]
    · cases hroot : c.path.grandparent?.filter (r.contains d) with
      | none => simp [hentry, hkind]
      | some root =>
          cases htime : p.files.modifiedAt? c.path with
          | none => simp [hentry, hkind]
          | some time =>
              cases hcompile : Candidate.compile? p.files d
                  ⟨c.path, p.session.workspace.namespaceForRoot root d, time⟩ <;>
                simp [hentry, hkind, hcompile, compile]
  · simp [step_of_not_isEntry hentry, hentry]

/-- An update counts the changes of entry files. -/
theorem discovered_foldl (changes : List FileChange) (u : Update) :
    (changes.foldl (step p d r) u).stats.discovered =
      u.stats.discovered + changes.countP fun c => c.path.isEntry d.entryExtensions := by
  induction changes generalizing u with
  | nil => rfl
  | cons c rest ih =>
      rw [List.foldl_cons, ih, discovered_step, List.countP_cons]
      omega

/-- An update that found no entry file has nothing to bring in. -/
theorem batch_of_discovered (h : (changes.foldl (step p d r) {}).stats.discovered = 0) :
    (changes.foldl (step p d r) {}).batch = [] := by
  rw [discovered_foldl, Nat.zero_add, List.countP_eq_zero] at h
  have hkeep : ∀ u, changes.foldl (step p d r) u = u := by
    intro u
    induction changes with
    | nil => rfl
    | cons c rest ih =>
        obtain ⟨hhead, hrest⟩ := List.forall_mem_cons.mp h
        rw [List.foldl_cons, step_of_not_isEntry hhead]
        exact ih hrest
  rw [hkeep]
  rfl

/-- Without own tags no entry file has a tag. -/
theorem tagForFile?_of_nil (hp : p.index.Grounded) (hnone : p.owned d = []) {file : Path}
    (hentry : file.isEntry d.entryExtensions = true) :
    (p.index.registry d).tagForFile? file = none := by
  cases htag : (p.index.registry d).tagForFile? file with
  | none => rfl
  | some t =>
      obtain ⟨hown, -⟩ := hp.own_of_tagForFile? hentry htag
      rw [hp.sound.owned_eq_nil_iff.mp hnone] at hown
      cases hown

theorem isEntry_of_outcome? {c : FileChange} {outcome : Path × Option Tag}
    (h : outcome? p d r c = some outcome) : outcome.1.isEntry d.entryExtensions = true := by
  rw [outcome?_eq] at h
  obtain ⟨candidate, hcandidate, rfl⟩ := Option.map_eq_some_iff.mp h
  unfold candidate? at hcandidate
  split at hcandidate
  · next hkeep => exact hkeep.1
  · cases hcandidate

/-- A batch that starts and ends without own tags is empty. -/
theorem batchOf_of_nil {outcomes : List (Path × Option Tag)} {tags : List Tag}
    (houtcomes : outcomes.Perm (changes.filterMap (outcome? p d r))) (hp : p.index.Grounded)
    (hbefore : p.owned d = [])
    (hafter : (p.index.own d).changeAll (batchOf p d changes outcomes tags) = Holdings.none) :
    batchOf p d changes outcomes tags = [] := by
  have htags : tags = [] := by
    refine List.eq_nil_iff_forall_not_mem.mpr fun t hmem => ?_
    have hheld := congrFun hafter t.key
    rw [batchOf, Holdings.changeAll_append, Holdings.changeAll_upsert, Holdings.none,
      Option.or_eq_none_iff, List.find?_eq_none] at hheld
    exact hheld.1 t (List.mem_reverse.mpr hmem) (beq_self_eq_true _)
  have hdeleted : changes.filterMap (deletedKey? p d) = [] := by
    refine List.filterMap_eq_nil_iff.mpr fun c _ => ?_
    unfold deletedKey?
    split
    · next hgone => rw [tagForFile?_of_nil hp hbefore hgone.1, Option.map_none]
    · rfl
  have hbroken : outcomes.filterMap (brokenKey? (p.index.registry d)) = [] := by
    refine List.filterMap_eq_nil_iff.mpr fun outcome hmem => ?_
    obtain ⟨c, -, houtcome⟩ := List.mem_filterMap.mp (houtcomes.mem_iff.mp hmem)
    unfold brokenKey?
    split
    · rw [tagForFile?_of_nil hp hbefore (isEntry_of_outcome? houtcome), Option.map_none]
    · rfl
  rw [batchOf, htags, hdeleted, hbroken]
  rfl

end Batch

end Update

namespace Project

section Update

variable {p q : Project} {d : Dialect} {r : NamespaceRoots} {changes : List FileChange}

/-- An update that finds nothing and removes nothing leaves the index. -/
theorem update_default (hroots : p.namespaceRoots = .ok r)
    (h : (p.update changes d).2 = .ok {}) : (p.update changes d).1.index = p.index := by
  have hremembered : p.remember.namespaceRoots = .ok r := (namespaceRoots_remember p).trans hroots
  unfold update at h ⊢
  dsimp only at h ⊢
  rw [hremembered] at h ⊢
  dsimp only at h ⊢
  split at h
  · next hasks =>
      rw [if_pos hasks]
      exact (pass_default (p := p.remember) h).1
  · next hasks =>
      have hcounts := congrArg Stats.discovered (Except.ok.inj h)
      rw [if_neg hasks, Update.batch_of_discovered hcounts]
      exact Index.commit_nil p.index d

/-- An update that starts and ends without own tags leaves the index. -/
theorem UpdatesTo.index_of_nil (h : p.UpdatesTo changes d q) (hp : p.index.Grounded)
    (ht : p.files.WellNamed) (hbefore : p.owned d = []) (hafter : q.index.own d = Holdings.none) :
    q.index = p.index := by
  cases h with
  | pass hroots hasks hpass => exact hpass.index_of_nil (p := p.remember) hp.sound ht hbefore hafter
  | @batch roots outcomes tags hroots hasks houtcomes htags =>
      have hentries := Update.entry_of_upsert houtcomes htags
      have hown := hp.sound.own_commit fun t ht => (hentries t ht).1
      have hempty := Update.batchOf_of_nil houtcomes hp hbefore (hown.symm.trans hafter)
      change (p.index.commit d (Update.batchOf p d changes outcomes tags)).1 = p.index
      rw [hempty, Index.commit_nil]

end Update

/-- Whether a batch of changes leads to a new search for namespace roots. -/
def Renews (p : Project) (changes : List FileChange) : Prop :=
  ∃ r, p.namespaceRoots = .ok r ∧ notices (p.relevant changes) r = true

section Batch

variable {p : Project} {changes : List FileChange}

theorem not_renews_of_nil (h : p.relevant changes = []) : ¬p.Renews changes := by
  rintro ⟨r, -, hnotices⟩
  rw [h] at hnotices
  simp [notices, tells] at hnotices

theorem applyChanges_of_error {e : ConfigError} (hroots : p.namespaceRoots = .error e)
    (hsome : p.relevant changes ≠ []) : p.applyChanges changes = (p, .error e) := by
  have hboth : p.forBoth (update (p.relevant changes)) = (p, .error e) :=
    forBoth_of_error (update_of_error hroots _ .lwc)
  have hrelevant : (changes.filter fun c => p.session.workspace.isRelevant c.path) =
      p.relevant changes := rfl
  unfold applyChanges
  dsimp only
  rw [hrelevant, if_neg (by rwa [List.isEmpty_iff]), hboth]

/-- Updates of both dialects that start and end without own tags leave the index. -/
theorem UpdatesTo.index_of_nil_both {m n : Project} (hfirst : p.UpdatesTo changes .lwc m)
    (hsecond : m.UpdatesTo changes .aura n) (hp : p.index.Grounded) (ht : p.files.WellNamed)
    (hbefore : ∀ d, p.owned d = []) (hafter : ∀ d, n.owned d = []) : n.index = p.index := by
  have hm := hfirst.grounded hp ht
  have hn := hsecond.grounded hm (hfirst.wellNamed ht)
  have hown : ∀ d, n.index.own d = Holdings.none :=
    fun d => hn.sound.owned_eq_nil_iff.mp (hafter d)
  have hlwc : m.index.own .lwc = Holdings.none := by
    rw [← hsecond.own_of_ne hm (hfirst.wellNamed ht) (by decide), hown]
  have hmiddle := hfirst.index_of_nil hp ht (hbefore .lwc) hlwc
  have hmnone : m.owned .aura = [] := by
    rw [owned, hmiddle]
    exact hbefore .aura
  exact (hsecond.index_of_nil hm (hfirst.wellNamed ht) hmnone (hown .aura)).trans hmiddle

/-- A batch that reports nothing without a new search leaves the index. -/
theorem index_of_silent (hsilent : (p.applyChanges changes).2 = .ok {})
    (hquiet : ¬p.Renews changes) : (p.applyChanges changes).1.index = p.index := by
  by_cases hnone : p.relevant changes = []
  · rw [applyChanges_of_nil hnone]
  cases hroots : p.namespaceRoots with
  | error e =>
      rw [applyChanges_of_error hroots hnone] at hsilent
      cases hsilent
  | ok r =>
      obtain ⟨m, n, s, hlwc, haura, hfirst, -, happly⟩ := applyChanges_eq hroots hnone
      have hnotices : ¬notices (p.relevant changes) r = true :=
        fun htells => hquiet ⟨r, hroots, htells⟩
      rw [if_neg hnotices] at happly
      rw [happly] at hsilent ⊢
      obtain rfl := Except.ok.inj hsilent
      have hm : m.index = p.index := by
        have hstep := update_default hroots (congrArg Prod.snd hlwc)
        rwa [hlwc] at hstep
      have hn : n.index = m.index := by
        have hstep := update_default (hfirst.namespaceRoots hroots) (congrArg Prod.snd haura)
        rwa [haura] at hstep
      exact hn.trans hm

/-- A batch that reports nothing behind a new search leaves no own tags, and so the index changes
if there were some. -/
theorem Renews.of_silent (h : p.Renews changes) (hp : p.index.Grounded) (ht : p.files.WellNamed)
    (hsilent : (p.applyChanges changes).2 = .ok {}) :
    let q := (p.applyChanges changes).1
    (q.index = p.index ↔ ∀ d, p.owned d = []) ∧ ∀ d, q.owned d = [] := by
  intro q
  have hsome : p.relevant changes ≠ [] := fun hnone => not_renews_of_nil hnone h
  obtain ⟨r, hroots, hnotices⟩ := h
  obtain ⟨m, n, s, -, -, hfirst, hsecond, happly⟩ := applyChanges_eq hroots hsome
  rw [if_pos hnotices] at happly
  have hq : q = n.forgetRoots.fullIndex.1 := congrArg Prod.fst happly
  rw [happly] at hsilent
  obtain ⟨hindex, hnil⟩ := fullIndex_default (p := n.forgetRoots) hsilent
  have hqn : q.index = n.index := by
    rw [hq]
    exact hindex
  have hlost : ∀ d, q.owned d = [] := by
    intro d
    rw [owned, hqn]
    exact hnil d
  refine ⟨⟨fun hsame d => ?_, fun hkept => ?_⟩, hlost⟩
  · rw [owned, ← hsame]
    exact hlost d
  · rw [hqn]
    exact hfirst.index_of_nil_both hsecond hp ht hkept hnil

/-- After any history, a batch that reports nothing at all has left the index as it was, unless it
led to a new search for namespace roots while there were own tags. Behind a new search no own tags
are left, whatever there was before the batch. -/
theorem Reached.silent_batch (h : p.Reached) (hsilent : (p.applyChanges changes).2 = .ok {}) :
    let q := (p.applyChanges changes).1
    (q.index = p.index ↔ ¬p.Renews changes ∨ ∀ d, p.owned d = []) ∧
      (p.Renews changes → ∀ d, q.owned d = []) := by
  intro q
  by_cases hrenews : p.Renews changes
  · obtain ⟨hsame, hlost⟩ := hrenews.of_silent h.grounded h.wellNamed hsilent
    exact ⟨hsame.trans (or_iff_right (not_not_intro hrenews)).symm, fun _ => hlost⟩
  · exact ⟨iff_of_true (index_of_silent hsilent hrenews) (.inl hrenews),
      fun hrenewed => absurd hrenewed hrenews⟩

end Batch

namespace Removal

/-- A package with one component, and the manifest that names it. -/
def before : FileTree :=
  (FileTree.empty.plant ⟨"/w/sfdx-project.json"⟩
    (.file (some "\x7b\"packageDirectories\":[\x7b\"path\":\"s\"\x7d]\x7d") 5)).plant
      ⟨"/w/s/a/a.cmp"⟩ (.file (some "<aura:component/>") 5)

/-- The component is gone, and one outside of the package is there. -/
def after : FileTree :=
  ((before.remove? ⟨"/w/s/a"⟩).getD before).plant ⟨"/w/x/y/y.cmp"⟩
    (.file (some "<aura:component/>") 6)

def workspace : Workspace :=
  ⟨[⟨"/w"⟩], .packageSet, { Settings.standard with cache := false }, ⟨[]⟩, none⟩

/-- A session that has indexed the package and now sees the other files. -/
def project : Project :=
  ⟨after, (pass ⟨before, .ofWorkspace workspace⟩ .aura true).1.session⟩

def changes : List FileChange :=
  [⟨⟨"/w/s/a/a.cmp"⟩, .deleted⟩, ⟨⟨"/w/x/y/y.cmp"⟩, .created⟩]

theorem reached : project.Reached := by
  have hstart : Reached ⟨before, .ofWorkspace workspace⟩ := .start workspace (by decide +kernel)
  exact (hstart.calls (calls_pass _ .aura true)).edit (by decide +kernel)

end Removal

/-- A component is removed and another one is created outside of the package: the batch reports
nothing, and the index has lost the component. -/
theorem Reached.silent_batch_removal :
    let q := (Removal.project.applyChanges Removal.changes).1
    Removal.project.owned .aura ≠ [] ∧ (Removal.project.applyChanges Removal.changes).2 = .ok {} ∧
      (∀ d, q.owned d = []) ∧ q.index ≠ Removal.project.index := by
  have howned : Removal.project.owned .aura ≠ [] := by decide +kernel
  have hsilent : (Removal.project.applyChanges Removal.changes).2 = .ok {} := by decide +kernel
  have hroots : Removal.project.namespaceRoots = .ok ⟨[], [⟨"/w/s"⟩]⟩ := by decide +kernel
  have hnotices : notices (Removal.project.relevant Removal.changes) ⟨[], [⟨"/w/s"⟩]⟩ = true := by
    decide +kernel
  have hrenews : Removal.project.Renews Removal.changes := ⟨_, hroots, hnotices⟩
  obtain ⟨hsame, hlost⟩ := Removal.reached.silent_batch hsilent
  refine ⟨howned, hsilent, hlost hrenews, fun hindex => ?_⟩
  rcases hsame.mp hindex with hquiet | hnone
  · exact hquiet hrenews
  · exact howned (hnone .aura)

end Project

end ComponentAtlas
