import ComponentAtlas.Proofs.Registry.Runs
import ComponentAtlas.Proofs.Session.Resuming

/-!
# Calls that fail

A call of a session fails when the namespace roots cannot be had, and for no other reason. Passes
and updates ask for the roots before they do anything, so that all is as it was when they fail. A
rebuild forgets the own tags of its dialect before it asks, and a rebuild that fails has lost them.
-/

namespace ComponentAtlas

namespace Registry

/-- A registry without own tags holds nothing of its dialect. -/
theorem owned_eq_nil_iff {r : Registry} (h : Ordered r.tags) :
    r.owned = [] ↔ r.own = Holdings.none := by
  constructor
  · intro hnone
    funext key
    rw [← lookup_owned h, hnone]
    rfl
  · intro hnone
    refine List.eq_nil_iff_forall_not_mem.mpr fun t ht => ?_
    rw [mem_owned_iff h, hnone] at ht
    cases ht

/-- Without own tags and new ones there is nothing to replace. -/
theorem replacement_nil {r : Registry} (h : r.owned = []) : r.replacement [] = [] := by
  rw [replacement, staleKeys, h]
  rfl

end Registry

namespace Index

theorem clearOwned_of_nil {ix : Index} {d : Dialect} (h : (ix.registry d).owned = []) :
    (ix.clearOwned d).1 = ix := by
  change (ix.commit d ((ix.registry d).replacement [])).1 = ix
  rw [Registry.replacement_nil h, commit_nil]

namespace Sound

variable {ix : Index} (h : ix.Sound) {d : Dialect}
include h

theorem owned_eq_nil_iff : (ix.registry d).owned = [] ↔ ix.own d = Holdings.none :=
  Registry.owned_eq_nil_iff (h.ordered d)

/-- Forgetting own tags leaves none of them, and those of the other dialect. -/
theorem own_clearOwned : (ix.clearOwned d).1.own d = Holdings.none ∧
    ∀ e, e ≠ d → (ix.clearOwned d).1.own e = ix.own e :=
  ⟨h.own_replaceOwned (List.forall_mem_nil _),
    fun _ he => h.own_replaceOwned_of_ne (List.forall_mem_nil _) he⟩

/-- Forgetting own tags changes an index that has some. -/
theorem clearOwned_eq_iff : (ix.clearOwned d).1 = ix ↔ (ix.registry d).owned = [] := by
  refine ⟨fun hsame => ?_, clearOwned_of_nil⟩
  rw [h.owned_eq_nil_iff]
  exact (congrArg (·.own d) hsame).symm.trans h.own_clearOwned.1

end Sound

end Index

namespace Project

/-- Builds the tags of one dialect anew: the own tags are forgotten, and a pass compiles every
candidate. -/
def rebuildOne (p : Project) (d : Dialect) : Attempt Stats :=
  (p.replaceOwned d []).1.pass d false

/-- The projects to which a session leads: it is opened on any workspace, its calls come in any
order and each with its tasks in any order, and files change in between. -/
inductive Reached : Project → Prop where
  | start {t : FileTree} (w : Workspace) (hnamed : t.WellNamed) : Reached ⟨t, .ofWorkspace w⟩
  | call {p q : Project} (h : Reached p) (hcall : Calls p q) : Reached q
  | edit {p : Project} {t : FileTree} (h : Reached p) (hnamed : t.WellNamed) :
      Reached ⟨t, p.session⟩

section Invariant

variable {p q : Project} {d : Dialect} {changes : List FileChange}

theorem UpdatesTo.grounded (h : p.UpdatesTo changes d q) (hp : p.index.Grounded)
    (ht : p.files.WellNamed) : q.index.Grounded :=
  (h.takes ht).grounded hp

theorem UpdatesTo.wellNamed (h : p.UpdatesTo changes d q) (ht : p.files.WellNamed) :
    q.files.WellNamed :=
  (h.takes ht).wellNamed ht

/-- A call keeps the index grounded and the names of the files plain. -/
theorem Calls.keeps (h : Calls p q) (hp : p.index.Grounded ∧ p.files.WellNamed) :
    q.index.Grounded ∧ q.files.WellNamed := by
  obtain ⟨d, htakes⟩ := h.takes hp.2
  exact ⟨htakes.grounded hp.1, htakes.wellNamed hp.2⟩

theorem Reached.keeps (h : p.Reached) : p.index.Grounded ∧ p.files.WellNamed := by
  induction h with
  | start w hnamed => exact ⟨Index.grounded_empty _, hnamed⟩
  | call h hcall ih => exact hcall.keeps ih
  | edit h hnamed ih => exact ⟨ih.1, hnamed⟩

theorem Reached.grounded (h : p.Reached) : p.index.Grounded := h.keeps.1

theorem Reached.wellNamed (h : p.Reached) : p.files.WellNamed := h.keeps.2

/-- A run of calls. -/
theorem Reached.calls (h : p.Reached) (hq : Relation.ReflTransGen Calls p q) : q.Reached := by
  induction hq with
  | refl => exact h
  | tail _ hcall ih => exact ih.call hcall

end Invariant

/-- A project without own tags differs in its index. -/
theorem clear_eq {p : Project} (h : p.index.Sound) :
    ∃ ix : Index, p.clear = p.withIndex ix ∧ ix.Sound ∧ ∀ d, ix.own d = Holdings.none := by
  have hone : ∀ (q : Project) (d : Dialect),
      (q.replaceOwned d []).1 = q.withIndex (q.index.clearOwned d).1 := fun _ _ => rfl
  have hlwc := h.own_clearOwned (d := .lwc)
  have hfirst : (p.index.clearOwned .lwc).1.Sound := h.replaceOwned (List.forall_mem_nil _)
  have haura := hfirst.own_clearOwned (d := .aura)
  refine ⟨((p.index.clearOwned .lwc).1.clearOwned .aura).1, ?_,
    hfirst.replaceOwned (List.forall_mem_nil _), fun d => ?_⟩
  · rw [clear, hone, hone]
    rfl
  · cases d with
    | lwc => exact (haura.2 .lwc (by decide)).trans hlwc.1
    | aura => exact haura.1

section Failure

variable {p : Project} {e : ConfigError}

/-- Roots that cannot be had are not known, and stay unknown. -/
theorem remember_of_error (h : p.namespaceRoots = .error e) : p.remember = p := by
  have hroots : p.session.workspace.namespaceRoots p.files = .error e := h
  have hunknown : p.session.workspace.known = none := by
    cases hknown : p.session.workspace.known with
    | none => rfl
    | some r =>
        rw [Workspace.namespaceRoots, hknown] at hroots
        cases hroots
  have hsame : p.session.workspace.remember p.files = p.session.workspace := by
    rw [Workspace.remember, hroots, Except.toOption, ← hunknown]
  unfold remember Session.remember
  rw [hsame]

theorem pass_of_error (h : p.namespaceRoots = .error e) (d : Dialect) (reuse : Bool) :
    p.pass d reuse = (p, .error e) := by
  unfold pass
  dsimp only
  rw [remember_of_error h, h]

theorem update_of_error (h : p.namespaceRoots = .error e) (changes : List FileChange)
    (d : Dialect) : p.update changes d = (p, .error e) := by
  unfold update
  dsimp only
  rw [remember_of_error h, h]

theorem rebuildOne_of_error (h : p.namespaceRoots = .error e) (d : Dialect) :
    p.rebuildOne d = (p.withIndex (p.index.clearOwned d).1, .error e) :=
  pass_of_error (p := (p.replaceOwned d []).1) h d false

theorem forBoth_of_error {op : Project → Dialect → Attempt Stats} {q : Project}
    (h : op p .lwc = (q, .error e)) : p.forBoth op = (q, .error e) := by
  unfold forBoth
  rw [h]

/-- What succeeds with namespace roots and fails without them fails for no other reason. -/
theorem eq_error_iff {α : Type} {result : Except ConfigError α}
    (hok : ∀ r, p.namespaceRoots = .ok r → result.isOk = true)
    (herror : ∀ e, p.namespaceRoots = .error e → result = .error e) :
    result = .error e ↔ p.namespaceRoots = .error e := by
  refine ⟨fun hresult => ?_, herror e⟩
  cases hroots : p.namespaceRoots with
  | ok r =>
      have hsucceeds := hok r hroots
      rw [hresult] at hsucceeds
      cases hsucceeds
  | error e' =>
      obtain rfl : e' = e := Except.error.inj ((herror e' hroots).symm.trans hresult)
      rfl

/-- A session that fails to rebuild both dialects has lost the own tags of both. -/
theorem Reached.rebuild_of_error (h : p.Reached) (hroots : p.namespaceRoots = .error e) :
    p.fullIndex = (p, .error e) ∧ p.rebuild.2 = .error e ∧ ∀ d, p.rebuild.1.owned d = [] := by
  obtain ⟨ix, hclear, hsound, hnone⟩ := clear_eq h.grounded.sound
  have hpass : (p.withIndex ix).pass .lwc false = (p.withIndex ix, .error e) :=
    pass_of_error (p := p.withIndex ix) hroots .lwc false
  have hrebuild : p.rebuild = (p.withIndex ix, .error e) := by
    rw [rebuild, hclear]
    exact forBoth_of_error hpass
  rw [hrebuild]
  exact ⟨forBoth_of_error (pass_of_error hroots .lwc true), rfl,
    fun d => hsound.owned_eq_nil_iff.mpr (hnone d)⟩

/-- After any history a call fails exactly when the namespace roots cannot be had. A pass or an
update that fails leaves the project as it was. A rebuild that fails has changed the index and
nothing else: the own tags of its dialect are gone, with their mirrors, while those of the other
dialect are there. So it leaves the project as it was only if there was no own tag to lose. -/
theorem Reached.failed_calls (h : p.Reached) (d : Dialect) (changes : List FileChange)
    (e : ConfigError) :
    ((p.indexOne d).2 = .error e ↔ p.namespaceRoots = .error e) ∧
      ((p.update changes d).2 = .error e ↔ p.namespaceRoots = .error e) ∧
      ((p.rebuildOne d).2 = .error e ↔ p.namespaceRoots = .error e) ∧
      (p.namespaceRoots = .error e →
        (p.indexOne d).1 = p ∧ (p.update changes d).1 = p ∧
          let q := (p.rebuildOne d).1
          q = p.withIndex q.index ∧ q.owned d = [] ∧
            (∀ other, other ≠ d → q.owned other = p.owned other) ∧
              (p.index.Agrees → q.index.Agrees) ∧ (q = p ↔ p.owned d = [])) := by
  have hsound := h.grounded.sound
  refine ⟨?_, ?_, ?_, fun hroots => ?_⟩
  · exact eq_error_iff (fun r hr => pass_isOk p d true hr)
      fun e' he => congrArg Prod.snd (pass_of_error he d true)
  · exact eq_error_iff (fun r hr => update_isOk hr)
      fun e' he => congrArg Prod.snd (update_of_error he changes d)
  · exact eq_error_iff (fun r hr => pass_isOk (p.replaceOwned d []).1 d false hr)
      fun e' he => congrArg Prod.snd (rebuildOne_of_error he d)
  · have hcleared : (p.index.clearOwned d).1.Grounded :=
      h.grounded.replaceOwned (List.forall_mem_nil _)
    obtain ⟨hnone, hother⟩ := hsound.own_clearOwned (d := d)
    rw [show p.indexOne d = (p, .error e) from pass_of_error hroots d true,
      update_of_error hroots, rebuildOne_of_error hroots]
    refine ⟨rfl, rfl, rfl, hcleared.sound.owned_eq_nil_iff.mpr hnone, ?_, ?_, ?_⟩
    · intro other hne
      exact owned_congr (p := p.withIndex _) hcleared h.grounded (hother other hne)
    · intro hagrees
      have hadmits : p.index.Admits d .clear := trivial
      exact hagrees.perform hadmits
    · rw [← hsound.clearOwned_eq_iff]
      exact ⟨congrArg index, congrArg p.withIndex⟩

end Failure

namespace Refusal

/-- One component below a namespace root. -/
def files : FileTree :=
  FileTree.empty.plant ⟨"/w/s/a/a.cmp"⟩ (.file (some "<aura:component/>") 5)

/-- The same with a manifest that is cut off. -/
def broken : FileTree :=
  files.plant ⟨"/w/sfdx-project.json"⟩ (.file (some "\x7b") 6)

def workspace : Workspace :=
  ⟨[⟨"/w"⟩], .packageSet, { Settings.standard with cache := false }, ⟨[]⟩,
    some ⟨[], [⟨"/w/s"⟩]⟩⟩

/-- The session after a pass over the component. -/
def indexed : Project :=
  (pass ⟨files, .ofWorkspace workspace⟩ .aura true).1

/-- The session has forgotten its roots, and the manifest is cut off. -/
def project : Project :=
  forgetRoots ⟨broken, indexed.session⟩

theorem reached : project.Reached := by
  have hstart : Reached ⟨files, .ofWorkspace workspace⟩ := .start workspace (by decide +kernel)
  have hindexed : indexed.Reached := hstart.calls (calls_pass _ .aura true)
  exact (hindexed.edit (by decide +kernel)).call (.forgetRoots _)

end Refusal

/-- The manifest is cut off while the roots are unknown: a rebuild loses the component. -/
theorem Reached.failed_calls_malformed :
    let p := Refusal.project
    ∃ e, p.namespaceRoots = .error e ∧ p.owned .aura ≠ [] ∧ (p.indexOne .aura).1 = p ∧
      (p.rebuildOne .aura).1.owned .aura = [] ∧ (p.rebuildOne .aura).1 ≠ p := by
  intro p
  have howned : p.owned .aura ≠ [] := by decide +kernel
  have hroots : p.namespaceRoots.isOk = false := by decide +kernel
  cases herror : p.namespaceRoots with
  | ok r =>
      rw [herror] at hroots
      cases hroots
  | error e =>
      obtain ⟨-, -, -, hfailed⟩ := Refusal.reached.failed_calls .aura [] e
      obtain ⟨hpass, -, -, hnone, -, -, hsame⟩ := hfailed herror
      exact ⟨e, rfl, howned, hpass, hnone, fun h => howned (hsame.mp h)⟩

end Project

end ComponentAtlas
