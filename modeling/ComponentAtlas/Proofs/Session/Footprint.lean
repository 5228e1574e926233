import ComponentAtlas.Proofs.Indexing.Refound
import ComponentAtlas.Proofs.Session.Frames

/-!
# What indexing leaves of the namespace roots

A full index saves snapshots in a folder of the workspace, which it makes if it is missing. A later
search for namespace roots then finds every root that was there before, in the same order; a root
that it finds beside them is a folder of that name which the index has made. So the roots are the
same exactly when none of the new folders is found, as it is when the folder of the snapshots is
excluded.
-/

namespace ComponentAtlas

namespace Workspace

/-- A workspace whose search starts at straight paths. -/
def Straight (w : Workspace) (t : FileTree) : Prop :=
  ∀ root ∈ w.roots, root.Straight ∧
    ∀ m, Manifest.ofFolder t root = .ok m → ∀ p ∈ m.folders root, p.Straight

end Workspace

namespace Project

section Pass

variable {p q : Project} {d : Dialect} {reuse : Bool}

theorem PassesTo.grows (h : p.PassesTo d reuse q) (hclosed : p.files.Closed) :
    p.files.Grows q.files ∧ q.files.Closed := by
  rcases h.files with hsame | ⟨folder, -, hsave⟩
  · rw [hsame]
    exact ⟨.refl _, hclosed⟩
  · exact ⟨Snapshot.save_grows hsave, Snapshot.save_closed hsave hclosed⟩

theorem PassesTo.wellNamed (h : p.PassesTo d reuse q) (ht : p.files.WellNamed) :
    q.files.WellNamed := by
  rcases h.files with hsame | ⟨folder, -, hsave⟩
  · rw [hsame]
    exact ht
  · exact Snapshot.wellNamed_save hsave ht

end Pass

variable {p q : Project}

theorem IndexesTo.grows (h : p.IndexesTo q) (hclosed : p.files.Closed) :
    p.files.Grows q.files := by
  cases h with
  | both hne hfirst hsecond =>
      obtain ⟨hgrows, hmiddle⟩ := hfirst.grows hclosed
      exact hgrows.trans (hsecond.grows hmiddle).1

theorem IndexesTo.wellNamed (h : p.IndexesTo q) (ht : p.files.WellNamed) : q.files.WellNamed := by
  cases h with
  | both hne hfirst hsecond => exact hsecond.wellNamed (hfirst.wellNamed ht)

theorem IndexesTo.grounded (h : p.IndexesTo q) (hp : p.index.Grounded) (ht : p.files.WellNamed) :
    q.index.Grounded := by
  cases h with
  | both hne hfirst hsecond =>
      exact hsecond.grounded (hfirst.grounded hp ht) (hfirst.wellNamed ht)

/-- A full index remembers the roots. -/
theorem IndexesTo.known (h : p.IndexesTo q) {r : NamespaceRoots}
    (hroots : p.namespaceRoots = .ok r) : q.session.workspace.known = some r := by
  cases h with
  | both hne hfirst hsecond =>
      rw [hsecond.workspace, remember_workspace (hfirst.namespaceRoots hroots)]

/-- A full index leaves the workspace as it was, apart from the roots that it remembers. -/
theorem IndexesTo.searchRoots_eq (h : p.IndexesTo q) (t : FileTree) :
    q.session.workspace.searchRoots t = p.session.workspace.searchRoots t := by
  cases h with
  | both hne hfirst hsecond =>
      rw [hsecond.workspace, hfirst.workspace]
      rfl

/-- Behind a full index the search for namespace roots finds the roots that it found before, and
beside them at most folders of the reserved name that did not stand before. -/
theorem IndexesTo.searchRoots_standing (h : p.IndexesTo q) (hclosed : p.files.Closed)
    (hnamed : p.files.WellNamed) (hstraight : p.session.workspace.Straight p.files)
    {r : NamespaceRoots} (hroots : p.session.workspace.searchRoots p.files = .ok r) :
    ∃ r', q.session.workspace.searchRoots q.files = .ok r' ∧
      (∀ d, (r'.forDialect d).filter p.files.isFolder = r.forDialect d) ∧
      (∀ d, ∀ root ∈ r'.forDialect d, p.files.isFolder root = false →
        d = .lwc ∧ root.fileName? = some Dialect.lwc.word) ∧
      (r' = r ↔ ∀ root ∈ r'.lwc, p.files.isFolder root = true) := by
  obtain ⟨before, after, rfl, hrefound, hfind⟩ :=
    (h.grows hclosed).find hclosed hnamed (h.wellNamed hnamed)
      (fun root hroot => (hstraight root hroot).1) (fun root hroot => (hstraight root hroot).2)
      hroots
  have hstanding := fun d => (hrefound.ofFound d).1
  have hnew : ∀ d, ∀ root ∈ (NamespaceRoots.ofFound after).forDialect d,
      p.files.isFolder root = false → d = .lwc ∧ root.fileName? = some Dialect.lwc.word := by
    intro d root hroot hfolder
    obtain ⟨hlwc, hname, -⟩ := (hrefound.ofFound d).2 root hroot hfolder
    exact ⟨hlwc, hname⟩
  refine ⟨.ofFound after, by rw [h.searchRoots_eq]; exact hfind, hstanding, hnew, ?_, ?_⟩
  · intro hsame root hroot
    have hmem : root ∈ (NamespaceRoots.ofFound before).forDialect .lwc := by
      rw [← hsame]
      exact hroot
    rw [← hstanding .lwc] at hmem
    exact (List.mem_filter.mp hmem).2
  · intro hall
    have hlwc : (NamespaceRoots.ofFound after).lwc = (NamespaceRoots.ofFound before).lwc :=
      (List.filter_eq_self.mpr hall).symm.trans (hstanding .lwc)
    have haura : (NamespaceRoots.ofFound after).aura = (NamespaceRoots.ofFound before).aura := by
      refine (List.filter_eq_self.mpr fun root hroot => ?_).symm.trans (hstanding .aura)
      cases hfolder : p.files.isFolder root with
      | true => rfl
      | false => exact absurd (hnew .aura root hroot hfolder).1 (by decide)
    cases hafter : NamespaceRoots.ofFound after with
    | mk lwc aura =>
        cases hbefore : NamespaceRoots.ofFound before with
        | mk lwc' aura' =>
            rw [hafter, hbefore] at hlwc haura
            rw [NamespaceRoots.mk.injEq]
            exact ⟨hlwc, haura⟩

namespace Housing

/-- A component, and a folder for the snapshots. -/
def files : FileTree :=
  (FileTree.empty.plant ⟨"/c"⟩ .folder).plant ⟨"/w/aura/a/a.cmp"⟩
    (.file (some "<aura:component/>") 5)

/-- A workspace of which one root is to hold a snapshot. -/
def workspace : Workspace :=
  .ofSettings files [⟨"/c"⟩, ⟨"/c/.sfdx/indexes/lwc"⟩, ⟨"/w"⟩] .standard

def project : Project :=
  ⟨files, .ofWorkspace workspace⟩

/-- What a full index leaves. -/
def indexed : Project :=
  ((project.pass .lwc true).1.pass .aura true).1

theorem straight : project.session.workspace.Straight project.files := by
  have hroots : ∀ root ∈ workspace.roots, root.Straight := by
    rintro root (_ | ⟨_, _ | ⟨_, _ | ⟨_, ⟨⟩⟩⟩⟩)
    · exact ⟨["c"], by decide⟩
    · exact ⟨["c", ".sfdx", "indexes", "lwc"], by decide⟩
    · exact ⟨["w"], by decide⟩
  have hnone : ∀ root ∈ workspace.roots,
      (Manifest.ofFolder files root).toOption = none := by
    decide +kernel
  intro root hroot
  refine ⟨hroots root hroot, fun m hm => ?_⟩
  have hmissing := hnone root hroot
  rw [show Manifest.ofFolder files root = .ok m from hm] at hmissing
  cases hmissing

set_option maxRecDepth 4000 in
theorem indexes : project.IndexesTo indexed := by
  have hroots : project.namespaceRoots = .ok ⟨[], [⟨"/w/aura"⟩]⟩ := by
    decide +kernel
  have hfirst := passesTo_pass project .lwc true hroots
  exact .both (by decide) hfirst (passesTo_pass _ .aura true (hfirst.namespaceRoots hroots))

end Housing

set_option maxRecDepth 4000 in
/-- The folder of a snapshot is found as a root. -/
theorem searchRoots_finds_snapshots :
    ∃ r', Housing.workspace.searchRoots Housing.indexed.files = .ok r' ∧
      r'.lwc = [⟨"/c/.sfdx/indexes/lwc"⟩] ∧ r'.aura.filter Housing.files.isFolder = [⟨"/w/aura"⟩] ∧
        r' ≠ ⟨[], [⟨"/w/aura"⟩]⟩ := by
  have hbefore : Housing.workspace.searchRoots Housing.files = .ok ⟨[], [⟨"/w/aura"⟩]⟩ := by
    decide +kernel
  have hafter : Housing.workspace.searchRoots Housing.indexed.files =
      .ok ⟨[⟨"/c/.sfdx/indexes/lwc"⟩], [⟨"/w/aura"⟩]⟩ := by
    decide +kernel
  obtain ⟨r', hr', hstanding, -, hsame⟩ := Housing.indexes.searchRoots_standing
    (by decide +kernel) (by decide +kernel) Housing.straight hbefore
  rw [Housing.indexes.searchRoots_eq] at hr'
  obtain rfl := Except.ok.inj (hr'.symm.trans hafter)
  refine ⟨_, hafter, rfl, hstanding .aura, fun heq => ?_⟩
  have hfolder := hsame.mp heq _ List.mem_cons_self
  revert hfolder
  decide +kernel

end Project

end ComponentAtlas
