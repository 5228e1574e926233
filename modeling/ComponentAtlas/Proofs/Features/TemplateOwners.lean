import ComponentAtlas.Features.Ownership
import ComponentAtlas.Proofs.Session.Incremental
import ComponentAtlas.Proofs.Session.Placement

/-!
# The owner of a template

Three lookups are chained to find the component of a markup file: by the file itself, by the ends
of the files of scripts, and by the folder. In what indexing leaves none of them can lead out of the
folder of the file or to a mirror, and the folder holds one component at most. So the component is
that of the folder, in whatever order tags are looked through.
-/

namespace ComponentAtlas

open ComponentAtlas.Text

namespace Dialect

theorem ofMarkupFile?_eq_some {p : Path} {d : Dialect} (h : ofMarkupFile? p = some d) :
    ∃ ext ∈ d.markupExtensions, p.extension? = some ext := by
  obtain ⟨ext, hext, hfound⟩ := Option.bind_eq_some_iff.mp h
  exact ⟨ext, by simpa using List.find?_some hfound, hext⟩

/-- A file that is markup and defines a component is aura markup. -/
theorem aura_of_extensions {d e : Dialect} {ext : String} (hmarkup : ext ∈ d.markupExtensions)
    (hentry : ext ∈ e.entryExtensions) : d = .aura ∧ e = .aura := by
  have hnone : (∀ ext ∈ Dialect.lwc.markupExtensions, ∀ e : Dialect, ext ∉ e.entryExtensions) ∧
      ∀ ext ∈ Dialect.aura.markupExtensions, ext ∉ Dialect.lwc.entryExtensions := by
    refine ⟨fun ext hext e => ?_, by decide⟩
    cases e <;> revert ext <;> decide
  cases d with
  | lwc => exact absurd hentry (hnone.1 ext hmarkup e)
  | aura =>
      cases e with
      | lwc => exact absurd hentry (hnone.2 ext hmarkup)
      | aura => exact ⟨rfl, rfl⟩

end Dialect

theorem Path.extension?_of_isEntry {p : Path} {extensions : List String}
    (h : p.isEntry extensions = true) : ∃ ext ∈ extensions, p.extension? = some ext := by
  unfold isEntry at h
  split at h
  · cases h
  · next ext hext => exact ⟨ext, by simpa using (Bool.and_eq_true_iff.mp h).1, hext⟩

/-- A text that starts with a slash is no URI, so it stands for itself. -/
theorem Uri.documentPath_of_isAbsolute {p : Path} (h : p.isAbsolute = true) :
    documentPath p.text = p.text := by
  obtain ⟨rest, htext⟩ := Path.isAbsolute_iff.mp h
  have htrim : ∃ more, trim isOuterBlank ('/' :: rest) = '/' :: more := by
    have hstart : trimStart isOuterBlank ('/' :: rest) = '/' :: rest := rfl
    rw [trim, hstart, trimEnd]
    split
    · exact ⟨[], rfl⟩
    · exact ⟨_, rfl⟩
  obtain ⟨more, hmore⟩ := htrim
  have hread : read? p.text = none := by
    rw [read?, htext, hmore]
    rfl
  rw [documentPath, hread]

namespace Registry

/-- A template stands for scripts beside it, any other file for itself. -/
theorem of_mem_sourceCandidates {p c : Path} (habs : p.isAbsolute = true)
    (hc : c ∈ sourceCandidates p.text) : c.isAbsolute = true ∧ (c = p ∨ c.Beside p) := by
  obtain ⟨rest, htext⟩ := Path.isAbsolute_iff.mp habs
  unfold sourceCandidates at hc
  split at hc
  · next stem hstem =>
      obtain ⟨ext, hext, rfl⟩ := List.mem_map.mp hc
      have hsplit : p.text.toList = stem.reverse ++ ".html".toList := by
        rw [← List.reverse_reverse p.text.toList, stripFront?_eq_some_iff.mp hstem,
          List.reverse_append, List.reverse_reverse]
      have hslash : '/' ∈ stem := by
        have hmem : '/' ∈ stem.reverse ++ ".html".toList := hsplit ▸ htext ▸ List.mem_cons_self
        simpa using hmem
      obtain ⟨name, folder, rfl, hname⟩ := List.eq_append_cons_of_mem hslash
      have hplain : ∀ ext ∈ "html" :: Dialect.lwc.entryExtensions,
          '/' ∉ ext.toList ∧ 1 < ext.toList.length := by
        decide
      have hp : p.text.toList =
          folder.reverse ++ '/' :: (name.reverse ++ '.' :: "html".toList) := by
        rw [hsplit]
        simp
      let script : Path := ⟨String.ofList (name ++ '/' :: folder).reverse ++ "." ++ ext⟩
      have hscript : script.text.toList =
          folder.reverse ++ '/' :: (name.reverse ++ '.' :: ext.toList) := by
        simp [script]
      refine ⟨?_, .inr (Path.beside_of_stem (by simpa using hname) hscript hp
        (hplain ext (List.mem_cons_of_mem _ hext)) (hplain "html" List.mem_cons_self))⟩
      rw [Path.isAbsolute_iff, hscript]
      rw [htext] at hp
      cases hfolder : folder.reverse with
      | nil => exact ⟨_, rfl⟩
      | cons d more =>
          rw [hfolder] at hp
          obtain ⟨rfl, -⟩ := List.cons.inj hp
          exact ⟨_, rfl⟩
  · obtain rfl := List.mem_singleton.mp hc
    exact ⟨habs, .inl rfl⟩

end Registry

/-- A registry of a dialect that holds tags of entry files, only in aura markup also foreign ones,
and one own tag at most in each folder. -/
structure Registry.Placed (r : Registry) (d : Dialect) : Prop where
  dialect : r.dialect = d
  entries : ∀ t ∈ r.tags, t.file.isEntry t.dialect.entryExtensions = true
  foreign : d = .lwc → ∀ t ∈ r.tags, t.dialect = .lwc
  unique : ∀ t ∈ r.owned, ∀ u ∈ r.owned, t.file.Beside u.file → t = u

namespace Registry.Placed

variable {r : Registry} {d : Dialect} (h : r.Placed d)
include h

theorem mem_owned_iff {t : Tag} : t ∈ r.owned ↔ t ∈ r.tags ∧ t.dialect = d := by
  rw [owned, List.mem_filter, beq_iff_eq, h.dialect]

/-- The order in which tags are looked through does not matter for where they are. -/
theorem perm {tags : List Tag} (hperm : tags.Perm r.tags) :
    ({ r with tags } : Registry).Placed d := by
  have howned : ({ r with tags } : Registry).owned.Perm r.owned := hperm.filter _
  exact ⟨h.dialect, fun t ht => h.entries t (hperm.mem_iff.mp ht),
    fun hd t ht => h.foreign hd t (hperm.mem_iff.mp ht), fun t ht u hu =>
      h.unique t (howned.mem_iff.mp ht) u (howned.mem_iff.mp hu)⟩

variable {p : Path} (hmarkup : Dialect.ofMarkupFile? p = some d)
include hmarkup

/-- A tag whose own file is a markup file is an own one. -/
theorem of_components {t : Tag} (ht : t ∈ r.tags) (hfile : t.file.components = p.components) :
    t ∈ r.owned ∧ t.file.Beside p := by
  have hentry := h.entries t ht
  have hbeside := Path.beside_of_components hentry hfile
  obtain ⟨ending, hending, hmark⟩ := Dialect.ofMarkupFile?_eq_some hmarkup
  rw [Path.isEntry_congr hfile] at hentry
  obtain ⟨ending', hending', hmark'⟩ := Path.extension?_of_isEntry hentry
  obtain rfl : ending = ending' := Option.some.inj (hmark.symm.trans hmark')
  obtain ⟨rfl, hdialect⟩ := Dialect.aura_of_extensions hending hending'
  exact ⟨h.mem_owned_iff.mpr ⟨ht, hdialect⟩, hbeside⟩

/-- What is found by the end of a file is an own tag of the folder. -/
theorem of_findUri? (habs : p.isAbsolute = true) (hd : d = .lwc) {t : Tag}
    (ht : r.findUri? p.text = some t) : t ∈ r.owned ∧ t.file.Beside p := by
  have hmem : t ∈ r.tags := List.mem_of_find?_eq_some ht
  have hpass := List.find?_some
    (p := fun t : Tag => (sourceCandidates (Uri.documentPath p.text)).any t.file.endsWith) ht
  obtain ⟨c, hc, hends⟩ := List.any_eq_true.mp hpass
  rw [Uri.documentPath_of_isAbsolute habs] at hc
  obtain ⟨hcabs, hplace⟩ := of_mem_sourceCandidates habs hc
  have hfile := Path.components_of_endsWith hends hcabs
  rcases hplace with rfl | hbeside
  · exact h.of_components hmarkup hmem hfile
  · have hsame := Path.beside_of_components (h.entries t hmem) hfile
    exact ⟨h.mem_owned_iff.mpr ⟨hmem, (h.foreign hd t hmem).trans hd.symm⟩, hsame.trans hbeside⟩

end Registry.Placed

section Owner

variable {ix : Index} {d : Dialect} (h : (ix.registry d).Placed d) {p : Path}
  (habs : p.isAbsolute = true) (hmarkup : Dialect.ofMarkupFile? p = some d)
include h habs hmarkup

/-- A component that is found is an own one of the folder. -/
theorem Index.of_owner? {t : Tag} (ht : ix.owner? d p = some t) :
    t ∈ (ix.registry d).owned ∧ t.file.Beside p := by
  rcases Option.or_eq_some_iff.mp ht with hnamed | ⟨-, hfolder⟩
  · rcases Option.or_eq_some_iff.mp hnamed with hfile | ⟨-, huri⟩
    · obtain ⟨hmem, hsame⟩ := Registry.tagForFile?_eq_some hfile
      exact h.of_components hmarkup hmem hsame
    · split at huri
      · next hhtml => exact h.of_findUri? hmarkup habs hhtml.1 huri
      · cases huri
  · obtain ⟨folder, hparent, hfound⟩ := Option.bind_eq_some_iff.mp hfolder
    have hsame := List.find?_some (p := fun t : Tag => t.file.parent?.any folder.same) hfound
    exact ⟨List.mem_of_find?_eq_some hfound, (Path.beside_iff_same hparent).mpr hsame⟩

/-- The component of a markup file is the one of its folder. -/
theorem Index.owner?_eq_some_iff {t : Tag} : ix.owner? d p = some t ↔
    t ∈ (ix.registry d).owned ∧ t.file.Beside p := by
  refine ⟨Index.of_owner? h habs hmarkup, fun ⟨howned, hbeside⟩ => ?_⟩
  have hsome : ∃ u, ix.owner? d p = some u := by
    obtain ⟨-, folder, -, hparent, -⟩ := id hbeside
    have hfound : ((ix.registry d).owned.find? fun t => t.file.parent?.any folder.same).isSome := by
      rw [List.find?_isSome]
      exact ⟨t, howned, (Path.beside_iff_same hparent).mp hbeside⟩
    rw [← Option.isSome_iff_exists, Index.owner?, Option.isSome_or, Bool.or_eq_true, hparent,
      Option.bind_some]
    exact .inr hfound
  obtain ⟨u, hu⟩ := hsome
  obtain ⟨howned', hbeside'⟩ := Index.of_owner? h habs hmarkup hu
  rw [hu, h.unique t howned u howned' (hbeside.trans hbeside'.symm)]

end Owner

namespace Site

variable {folders : Path → Prop} {site : Site} {s : Session}

/-- After any history registries are placed. -/
theorem Filled.placed (h : site.Filled folders) (hs : s ∈ site.sessions) (d : Dialect) :
    (s.index.registry d).Placed d := by
  have hgrounded := ((h.holds inherent_stem).sessions s hs).grounded
  refine ⟨hgrounded.sound.dialect d, hgrounded.entries d, ?_,
    fun t ht u hu hbeside => h.eq_of_beside hs ht hu hbeside⟩
  rintro rfl
  exact hgrounded.sound.lwc_tags

/-- After any history an absolute markup file belongs to the component of its dialect whose source
stands in its own folder, which is the only one there. It belongs to none if there is none, and the
order in which the tags are looked through does not matter. -/
theorem Filled.owner_of_folder (h : site.Filled folders) (hs : s ∈ site.sessions) {d : Dialect}
    {p : Path} (habs : p.isAbsolute = true) (hmarkup : Dialect.ofMarkupFile? p = some d) :
    let r := s.index.registry d
    (∀ t, s.index.owner? d p = some t ↔ t ∈ r.owned ∧ t.file.Beside p) ∧
      (s.index.owner? d p = none ↔ ∀ t ∈ r.owned, ¬t.file.Beside p) ∧
      (∀ t ∈ r.owned, ∀ u ∈ r.owned, t.file.Beside p → u.file.Beside p → t = u) ∧
      ∀ tags, tags.Perm r.tags →
        (s.index.withRegistry d { r with tags }).owner? d p = s.index.owner? d p := by
  intro r
  have hplaced : r.Placed d := h.placed hs d
  have hiff := fun t => Index.owner?_eq_some_iff (t := t) hplaced habs hmarkup
  refine ⟨hiff, ?_, fun t ht u hu hbeside hbeside' =>
    hplaced.unique t ht u hu (hbeside.trans hbeside'.symm), fun tags hperm => ?_⟩
  · rw [Option.eq_none_iff_forall_ne_some]
    exact forall_congr' fun t => by rw [ne_eq, hiff, not_and]
  · have howned : ∀ t, t ∈ ({ r with tags } : Registry).owned ↔ t ∈ r.owned :=
      fun t => (hperm.filter _).mem_iff
    have hregistry : (s.index.withRegistry d { r with tags }).registry d = { r with tags } := by
      cases d <;> rfl
    have hplaced' : ((s.index.withRegistry d { r with tags }).registry d).Placed d := by
      rw [hregistry]
      exact hplaced.perm hperm
    ext t
    rw [hiff, ← howned, Index.owner?_eq_some_iff hplaced' habs hmarkup, hregistry]

namespace Templates

/-- A web component and an aura component. -/
def files : FileTree :=
  (FileTree.empty.plant ⟨"/w/s/card/card.js"⟩ (.file (some "export default class\x7b\x7d") 5)).plant
    ⟨"/w/a/panel/panel.cmp"⟩ (.file (some "<aura:component/>") 6)

def workspace : Workspace :=
  ⟨[⟨"/w"⟩], .packageSet, { Settings.standard with cache := false }, ⟨[]⟩,
    some ⟨[⟨"/w/s"⟩], [⟨"/w/a"⟩]⟩⟩

/-- The session after a full pass. -/
def session : Session :=
  (Project.fullIndex ⟨files, .ofWorkspace workspace⟩).1.session

theorem filled : ∃ t, (⟨t, [session]⟩ : Site).Filled fun _ => False :=
  ⟨_, .opened (by decide +kernel) rfl (Project.calls_fullIndex _)⟩

end Templates

/-- A template of another name than its component belongs to it, and a mirror owns no markup. -/
theorem Filled.owner_of_folder_templates :
    let ix := Templates.session.index
    (∃ t, ix.owner? .lwc ⟨"/w/s/card/row.html"⟩ = some t ∧ t.key = "s:card") ∧
      (∃ t, ix.owner? .aura ⟨"/w/a/panel/row.cmp"⟩ = some t ∧ t.key = "a:panel") ∧
      ix.aura.all.map Tag.file = [⟨"/w/a/panel/panel.cmp"⟩, ⟨"/w/s/card/card.js"⟩] ∧
      ix.owner? .aura ⟨"/w/s/card/card.cmp"⟩ = none := by
  intro ix
  obtain ⟨files, hfilled⟩ := Templates.filled
  have howner := fun d p => hfilled.owner_of_folder List.mem_cons_self (d := d) (p := p)
  have hevaluated :
      (∃ t ∈ ix.lwc.owned, t.file.Beside ⟨"/w/s/card/row.html"⟩ ∧ t.key = "s:card") ∧
        (∃ t ∈ ix.aura.owned, t.file.Beside ⟨"/w/a/panel/row.cmp"⟩ ∧ t.key = "a:panel") ∧
        ix.aura.all.map Tag.file = [⟨"/w/a/panel/panel.cmp"⟩, ⟨"/w/s/card/card.js"⟩] ∧
        ∀ t ∈ ix.aura.owned, ¬t.file.Beside ⟨"/w/s/card/card.cmp"⟩ := by
    decide +kernel
  obtain ⟨⟨t, ht, hbeside, hkey⟩, ⟨u, hu, hbeside', hkey'⟩, hall, hnone⟩ := hevaluated
  exact ⟨⟨t, ((howner .lwc _ (by decide) (by decide)).1 t).mpr ⟨ht, hbeside⟩, hkey⟩,
    ⟨u, ((howner .aura _ (by decide) (by decide)).1 u).mpr ⟨hu, hbeside'⟩, hkey'⟩,
    hall, (howner .aura _ (by decide) (by decide)).2.1.mpr hnone⟩

end Site

end ComponentAtlas
