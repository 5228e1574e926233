import ComponentAtlas.Proofs.Registry.Mirrors

/-!
# Runs of operations

A run performs operations on the two registries in any order. The own tags of each dialect follow
from the operations on that dialect alone; with them the whole index does, whatever the order in
which the operations of the one dialect meet those of the other.
-/

namespace ComponentAtlas

/-- What a caller does with the registry of a dialect. -/
inductive Operation where
  | commit (changes : List TagChange)
  | replace (tags : List Tag)
  | clear
  deriving DecidableEq, Repr

namespace Holdings

/-- What is held after an operation. -/
def perform (h : Holdings) : Operation → Holdings
  | .commit changes => h.changeAll changes
  | .replace tags => ofTags tags
  | .clear => none

/-- What is held after the operations of a run on one dialect. -/
def run (h : Holdings) (d : Dialect) (ops : List (Dialect × Operation)) : Holdings :=
  ((ops.filter fun op => op.1 == d).map Prod.snd).foldl perform h

theorem run_cons_of_eq {h : Holdings} {d : Dialect} {op : Dialect × Operation}
    {rest : List (Dialect × Operation)} (hd : op.1 = d) :
    h.run d (op :: rest) = (h.perform op.2).run d rest := by
  simp [run, hd]

theorem run_cons_of_ne {h : Holdings} {d : Dialect} {op : Dialect × Operation}
    {rest : List (Dialect × Operation)} (hd : op.1 ≠ d) :
    h.run d (op :: rest) = h.run d rest := by
  simp [run, hd]

end Holdings

namespace Registry

/-- A registry holds exactly the tags of a map. -/
def Holds (r : Registry) (h : Holdings) : Prop :=
  (∀ key, r.get? key = h key) ∧ ∀ t, t ∈ r.all ↔ h t.key = some t

theorem holds_of_get? {r : Registry} (hordered : Ordered r.tags) {h : Holdings}
    (hget : r.get? = h) : r.Holds h := by
  subst hget
  exact ⟨fun key => rfl, fun t => hordered.mem_iff_lookup t⟩

theorem sparesMirrors_upsert (r : Registry) (tags : List Tag) :
    r.SparesMirrors (tags.map .upsert) := by
  induction tags generalizing r with
  | nil => trivial
  | cons t rest ih => exact ⟨fun _ _ h => (nomatch h), ih _⟩

/-- Removals of own keys find no mirror, whatever comes behind them. -/
theorem sparesMirrors_remove {r : Registry} (hordered : Ordered r.tags) {keys : List String}
    (hkeys : ∀ key ∈ keys, ∀ t, r.get? key = some t → t.dialect = r.dialect) (tags : List Tag) :
    r.SparesMirrors (keys.map .remove ++ tags.map .upsert) := by
  induction keys generalizing r with
  | nil => exact sparesMirrors_upsert r tags
  | cons gone rest ih =>
      refine ⟨?_, ih (applyChange_ordered false r _ hordered) fun key hkey t ht => ?_⟩
      · rintro key t ⟨⟩ ht
        exact hkeys gone List.mem_cons_self t ht
      · rw [applyChange_get? false r _ hordered, if_neg (by simp)] at ht
        rw [applyChange_dialect]
        by_cases hk : gone = key
        · rw [hk, Holdings.change_remove_self] at ht
          cases ht
        · rw [Holdings.change_of_ne (by exact hk)] at ht
          exact hkeys key (List.mem_cons_of_mem _ hkey) t ht

/-- A replacement finds no mirror. -/
theorem sparesMirrors_replacement {r : Registry} (hordered : Ordered r.tags) (tags : List Tag) :
    r.SparesMirrors (r.replacement tags) := by
  refine sparesMirrors_remove hordered (fun key hkey t ht => ?_) tags
  obtain ⟨u, hu, rfl⟩ := List.mem_map.mp (List.mem_filter.mp hkey).1
  have hown := own_eq_some.mp ((mem_owned_iff hordered).mp hu)
  have htu : t = u := Option.some_inj.mp (ht.symm.trans hown.1)
  exact htu ▸ hown.2

end Registry

namespace Index

open Registry

/-- The index after an operation on the registry of a dialect. -/
def perform (ix : Index) (d : Dialect) : Operation → Index
  | .commit changes => (ix.commit d changes).1
  | .replace tags => (ix.replaceOwned d tags).1
  | .clear => (ix.clearOwned d).1

/-- The index after a run. -/
def run (ix : Index) (ops : List (Dialect × Operation)) : Index :=
  ops.foldl (fun ix op => ix.perform op.1 op.2) ix

/-- The changes that an operation commits. -/
def changesOf (ix : Index) (d : Dialect) : Operation → List TagChange
  | .commit changes => changes
  | .replace tags => (ix.registry d).replacement tags
  | .clear => (ix.registry d).replacement []

theorem perform_eq_commit (ix : Index) (d : Dialect) (op : Operation) :
    ix.perform d op = (ix.commit d (ix.changesOf d op)).1 := by
  cases op <;> rfl

/-- An operation brings plain tags of its dialect, and no removal that is committed to the aura
registry finds a mirror. -/
def Admits (ix : Index) (d : Dialect) : Operation → Prop
  | .commit changes =>
      (∀ t, .upsert t ∈ changes → t.Plain d) ∧ (d = .aura → ix.aura.SparesMirrors changes)
  | .replace tags => ∀ t ∈ tags, t.Plain d
  | .clear => True

/-- Each operation of a run is admitted where it is performed. -/
def AdmitsRun (ix : Index) : List (Dialect × Operation) → Prop
  | [] => True
  | op :: rest => ix.Admits op.1 op.2 ∧ AdmitsRun (ix.perform op.1 op.2) rest

/-- The aura registry shows its own tags and the mirrors of plain web components. -/
structure Agrees (ix : Index) : Prop where
  sound : ix.Sound
  plain : ∀ t ∈ ix.lwc.tags, t.Plain .lwc
  shown : ix.aura.get? = Holdings.shown ix.standard ix.lwc.get? (ix.own .aura)

theorem agrees_empty (standard : String) : (empty standard).Agrees :=
  ⟨sound_empty standard, fun _ h => (nomatch h), rfl⟩

/-- The registry of web components holds nothing but own tags. -/
theorem Sound.lwc_get? {ix : Index} (h : ix.Sound) : ix.lwc.get? = ix.own .lwc := by
  funext key
  cases ht : ix.lwc.get? key with
  | none => exact (own_eq_none_of_get? ht).symm
  | some t =>
      have hd : t.dialect = ix.lwc.dialect :=
        (h.lwc_tags t (mem_of_lookup ht)).trans h.lwc_dialect.symm
      exact (own_eq_some.mpr ⟨ht, hd⟩).symm

/-- Own parts tell the whole index. -/
theorem Agrees.eq_of_own {ix other : Index} (h : ix.Agrees) (ho : other.Agrees)
    (hstandard : other.standard = ix.standard) (hown : ∀ d, other.own d = ix.own d) :
    other = ix := by
  have hlwc : other.lwc.get? = ix.lwc.get? := by
    rw [ho.sound.lwc_get?, h.sound.lwc_get?, hown]
  have haura : other.aura.get? = ix.aura.get? := by
    rw [ho.shown, h.shown, hstandard, hlwc, hown]
  have htags : ∀ d, (other.registry d).tags = (ix.registry d).tags := by
    intro d
    refine (ho.sound.ordered d).eq_of_lookup (h.sound.ordered d) fun key => ?_
    cases d with
    | lwc => exact congrFun hlwc key
    | aura => exact congrFun haura key
  have hregistry : ∀ d, other.registry d = ix.registry d := by
    intro d
    have hdialect : (other.registry d).dialect = (ix.registry d).dialect :=
      (ho.sound.dialect d).trans (h.sound.dialect d).symm
    have hspaces : (other.registry d).namespaces = (ix.registry d).namespaces := by
      rw [ho.sound.refreshed d, h.sound.refreshed d, htags d]
    calc
      other.registry d = ⟨(other.registry d).dialect, (other.registry d).tags,
        (other.registry d).namespaces⟩ := rfl
      _ = ⟨(ix.registry d).dialect, (ix.registry d).tags, (ix.registry d).namespaces⟩ := by
        rw [hdialect, htags d, hspaces]
  calc
    other = ⟨other.standard, other.registry .lwc, other.registry .aura⟩ := rfl
    _ = ⟨ix.standard, ix.registry .lwc, ix.registry .aura⟩ := by
      rw [hstandard, hregistry, hregistry]

section Step

variable {ix : Index} {d : Dialect} {op : Operation}

/-- What an admitted operation commits brings plain tags and spares the mirrors. -/
theorem Admits.changes (hix : ix.Sound) (hop : ix.Admits d op) :
    (∀ t, .upsert t ∈ ix.changesOf d op → t.Plain d) ∧
      (d = .aura → ix.aura.SparesMirrors (ix.changesOf d op)) := by
  have hreplace : ∀ tags : List Tag, (∀ t ∈ tags, t.Plain d) →
      (∀ t, .upsert t ∈ (ix.registry d).replacement tags → t.Plain d) ∧
        (d = .aura → ix.aura.SparesMirrors ((ix.registry d).replacement tags)) := by
    intro tags htags
    refine ⟨fun t ht => htags t (upsert_mem_replacement ht), ?_⟩
    rintro rfl
    exact sparesMirrors_replacement hix.aura_ordered tags
  cases op with
  | commit changes => exact hop
  | replace tags => exact hreplace tags hop
  | clear => exact hreplace [] fun _ h => nomatch h

theorem Sound.standard_perform (hix : ix.Sound) : (ix.perform d op).standard = ix.standard := by
  rw [perform_eq_commit, standard_commit hix]

variable (h : ix.Agrees) (hop : ix.Admits d op)
include h hop

theorem Agrees.brings : Brings d (ix.changesOf d op) :=
  fun t ht => ((hop.changes h.sound).1 t ht).1

/-- An admitted operation keeps the agreement. -/
theorem Agrees.perform : (ix.perform d op).Agrees := by
  obtain ⟨hplain, hspares⟩ := hop.changes h.sound
  have hbrings := h.brings hop
  rw [perform_eq_commit]
  refine ⟨h.sound.commit hbrings, ?_, ?_⟩
  · cases d with
    | lwc =>
        rw [commit_lwc h.sound.aura_dialect]
        intro t ht
        rcases mem_apply ht with hold | hnew
        · exact h.plain t hold
        · exact hplain t hnew
    | aura =>
        rw [commit_aura h.sound.aura_dialect]
        exact h.plain
  · rw [standard_commit h.sound]
    cases d with
    | lwc =>
        rw [commit_lwc h.sound.aura_dialect]
        simp only [own, registry, apply_get?, apply_own, apply_events]
        exact shown_applyBatch ⟨h.sound.lwc_dialect, h.sound.lwc_ordered, h.plain⟩
          h.sound.aura_dialect h.sound.aura_ordered hplain h.shown
    | aura =>
        rw [commit_aura h.sound.aura_dialect]
        have hbefore : ShownBut ix ix.aura [] := fun key => .inl (congrFun h.shown key)
        have hafter := hbefore.apply h.sound.aura_dialect h.sound.aura_ordered hbrings
          (hspares rfl)
        simp only [own, registry, apply_get? true, apply_own true]
        exact hafter.restored h.sound (by rw [apply_dialect, h.sound.aura_dialect])
          (apply_ordered false _ h.sound.aura_ordered)

/-- An operation acts on what is held of its dialect. -/
theorem Agrees.own_perform : (ix.perform d op).own d = (ix.own d).perform op := by
  have hcommit := h.sound.own_commit (h.brings hop)
  rw [perform_eq_commit, hcommit]
  cases op with
  | commit changes => rfl
  | replace tags => exact own_changeAll_replacement (h.sound.ordered d) tags
  | clear => exact own_changeAll_replacement (h.sound.ordered d) []

theorem Agrees.own_perform_of_ne {e : Dialect} (he : e ≠ d) :
    (ix.perform d op).own e = ix.own e := by
  rw [perform_eq_commit]
  exact h.sound.own_commit_of_ne (h.brings hop) he

/-- An operation leaves the own tags of the other dialect. -/
theorem Agrees.owned_perform_of_ne {e : Dialect} (he : e ≠ d) :
    ((ix.perform d op).registry e).owned = (ix.registry e).owned := by
  have hordered := (h.perform hop).sound.ordered e
  refine (ordered_owned hordered).eq_of_lookup (ordered_owned (h.sound.ordered e)) fun key => ?_
  rw [lookup_owned hordered, lookup_owned (h.sound.ordered e)]
  exact congrFun (h.own_perform_of_ne hop he) key

end Step

section Run

variable {ix : Index} {ops : List (Dialect × Operation)} (h : ix.Agrees)
  (hops : ix.AdmitsRun ops)
include h hops

theorem Agrees.run : (ix.run ops).Agrees := by
  induction ops generalizing ix with
  | nil => exact h
  | cons op rest ih => exact ih (h.perform hops.1) hops.2

/-- The operations on a dialect alone determine what is held of it. -/
theorem Agrees.own_run (d : Dialect) : (ix.run ops).own d = (ix.own d).run d ops := by
  induction ops generalizing ix with
  | nil => rfl
  | cons op rest ih =>
      have hrest := ih (h.perform hops.1) hops.2
      by_cases hd : op.1 = d
      · subst hd
        rw [Holdings.run_cons_of_eq rfl, ← h.own_perform hops.1]
        exact hrest
      · rw [Holdings.run_cons_of_ne hd, ← h.own_perform_of_ne hops.1 (Ne.symm hd)]
        exact hrest

theorem Agrees.standard_run : (ix.run ops).standard = ix.standard := by
  induction ops generalizing ix with
  | nil => rfl
  | cons op rest ih => exact (ih (h.perform hops.1) hops.2).trans h.sound.standard_perform

end Run

/-- After any run from the empty index, the registry of web components holds what the operations
on it leave, and the aura registry shows its own part with the mirrors behind it. Any other run of
the same operations on each dialect ends in the same index, and operations on the web components
leave the own tags of the aura registry. -/
theorem run_shows (standard : String) (ops : List (Dialect × Operation))
    (hops : (empty standard).AdmitsRun ops) :
    let lwc := Holdings.none.run .lwc ops
    let aura := Holdings.none.run .aura ops
    let ix := (empty standard).run ops
    ix.lwc.Holds lwc ∧
      ix.aura.Holds (Holdings.shown standard lwc aura) ∧
      (∀ others, (empty standard).AdmitsRun others →
        (∀ d, (others.filter fun op => op.1 == d) = ops.filter fun op => op.1 == d) →
          (empty standard).run others = ix) ∧
      ∀ op, ix.Admits .lwc op → (ix.perform .lwc op).aura.owned = ix.aura.owned := by
  intro lwc aura ix
  have hstart := agrees_empty standard
  have hix : ix.Agrees := hstart.run hops
  have hstandard : ix.standard = standard := hstart.standard_run hops
  have hlwc : ix.lwc.get? = lwc := hix.sound.lwc_get?.trans (hstart.own_run hops .lwc)
  have haura : ix.own .aura = aura := hstart.own_run hops .aura
  refine ⟨holds_of_get? hix.sound.lwc_ordered hlwc, holds_of_get? hix.sound.aura_ordered ?_,
    fun others hothers hsame => ?_, fun op hop => ?_⟩
  · rw [hix.shown, hstandard, hlwc, haura]
  · refine hix.eq_of_own (hstart.run hothers) ?_ fun d => ?_
    · rw [hstandard, hstart.standard_run hothers]
      rfl
    · rw [hstart.own_run hothers, hstart.own_run hops, Holdings.run, Holdings.run, hsame]
  · exact hix.owned_perform_of_ne hop (by decide : Dialect.aura ≠ .lwc)

/-- A mirror that an aura tag hides and uncovers again. -/
theorem run_shows_uncovered :
    let card : Tag :=
      ⟨⟨"shop", "card", .hyphen⟩, .lwc, ⟨"/shop/card/card.js"⟩, 1, none, none, [], []⟩
    let other : Tag :=
      ⟨⟨"shop", "card", .colon⟩, .aura, ⟨"/shop/card/card.cmp"⟩, 2, none, none, [], []⟩
    let ops : List (Dialect × Operation) :=
      [(.lwc, .commit [.upsert card]), (.aura, .replace [other]),
        (.aura, .commit [.remove "shop:card"])]
    (empty "c").AdmitsRun ops ∧
      ((empty "c").run ops).aura.Holds
        (Holdings.shown "c" (Holdings.none.run .lwc ops) (Holdings.none.run .aura ops)) := by
  intro card other ops
  have hcolon : ':' ∉ "shop".toList := by decide
  have hops : (empty "c").AdmitsRun ops := by
    refine ⟨⟨?_, ?_⟩, ?_, ⟨?_, fun _ => ⟨?_, trivial⟩⟩, trivial⟩
    · intro t ht
      obtain rfl : t = card := by simpa using ht
      exact ⟨rfl, hcolon⟩
    · exact fun h => nomatch h
    · intro t ht
      obtain rfl : t = other := by simpa using ht
      exact ⟨rfl, hcolon⟩
    · intro t ht
      simp at ht
    · rintro key t ⟨⟩ ht
      have hother : ∀ r : Option Tag, r = some t → r = some other → t.dialect = .aura := by
        rintro r rfl ⟨⟩
        rfl
      exact hother _ ht (by decide +kernel)
  exact ⟨hops, (run_shows "c" ops hops).2.1⟩

end Index

end ComponentAtlas
