import ComponentAtlas.Proofs.Registry.Mirrors
import ComponentAtlas.Proofs.Text.Conventions

/-!
# Attributes under both spellings

A public member of a web component gives an attribute with two names: the declared one and its
hyphenated spelling. As long as the members have different names without hyphens, and no capital
at the start of a public one, neither name is one of another member's, and the mirror calls the
attribute by its declared name again.
-/

namespace ComponentAtlas

open ComponentAtlas.Text

/-- The members of a component whose public names are told apart in either spelling. -/
structure Discernible (members : List Member) : Prop where
  distinct : (members.map Member.name).Nodup
  uncapitalized : ∀ m ∈ members, m.origin = .api → IsUncapitalized m.name.toList

section Names

variable {d : Dialect} {m n : Member} {members : List Member}

theorem mem_publicAttributes {a : Attribute} :
    a ∈ Tag.publicAttributes d members ↔
      ∃ m ∈ members, m.origin = .api ∧ m.asAttribute d = a := by
  simp [Tag.publicAttributes, and_assoc]

/-- Two names with a spelling in common, declared or hyphenated, are one. -/
theorem eq_of_spelling {name other : String} (h : IsUncapitalized name.toList)
    (hother : IsUncapitalized other.toList) {x : String} (hx : x = name ∨ x = kebabOfCamel name)
    (hxother : x = other ∨ x = kebabOfCamel other) : name = other := by
  have hkebab : ∀ {a b : String}, IsUncapitalized a.toList → IsUncapitalized b.toList →
      b = kebabOfCamel a → a = b := by
    intro a b ha hb heq
    refine String.toList_inj.mp (ha.eq_of_hyphenate_eq hb.hyphen_not_mem ?_)
    rw [heq, kebabOfCamel, String.toList_ofList]
  rcases hx with rfl | rfl
  · exact hxother.elim id fun heq => (hkebab hother h heq).symm
  · rcases hxother with heq | heq
    · exact hkebab h hother heq.symm
    · rw [← camelOfKebab_kebabOfCamel h, heq, camelOfKebab_kebabOfCamel hother]

/-- Two public members share a name, declared or in markup, only if they are one. -/
theorem Discernible.eq_of_names (h : Discernible members) (hm : m ∈ members)
    (hapi : m.origin = .api) (hn : n ∈ members) (hnapi : n.origin = .api) {x : String}
    (hx : x = m.name ∨ x = d.attributeName m.name)
    (hnx : x = n.name ∨ x = d.attributeName n.name) : n = m := by
  refine List.inj_on_of_nodup_map h.distinct hn hm ?_
  cases d with
  | aura => exact (hnx.elim id id).symm.trans (hx.elim id id)
  | lwc => exact eq_of_spelling (h.uncapitalized n hn hnapi) (h.uncapitalized m hm hapi) hnx hx

/-- The search among the attributes finds the only one with either name. -/
theorem Discernible.find?_publicAttributes (h : Discernible members) (hm : m ∈ members)
    (hapi : m.origin = .api) {x : String} (hx : x = m.name ∨ x = d.attributeName m.name) :
    (Tag.publicAttributes d members).find? (fun a => a.name == x || a.sourceName == x) =
      some (m.asAttribute d) := by
  have hnames : ∀ n : Member, ((n.asAttribute d).name == x || (n.asAttribute d).sourceName == x) =
      true ↔ x = n.name ∨ x = d.attributeName n.name := by
    intro n
    rw [Bool.or_eq_true, beq_iff_eq, beq_iff_eq, or_comm, eq_comm, @eq_comm _ _ x]
    rfl
  cases hfind : (Tag.publicAttributes d members).find?
      fun a => a.name == x || a.sourceName == x with
  | none =>
      have hmem : m.asAttribute d ∈ Tag.publicAttributes d members :=
        mem_publicAttributes.mpr ⟨m, hm, hapi, rfl⟩
      exact absurd ((hnames m).mpr hx) (List.find?_eq_none.mp hfind _ hmem)
  | some a =>
      have hfound := List.find?_some hfind
      obtain ⟨n, hn, hnapi, rfl⟩ := mem_publicAttributes.mp (List.mem_of_find?_eq_some hfind)
      rw [h.eq_of_names hm hapi hn hnapi hx ((hnames n).mp hfound)]

/-- In camel case again, the attributes of a web component are those its members give in aura. -/
theorem Discernible.map_camelOfKebab (h : Discernible members) :
    (Tag.publicAttributes .lwc members).map (fun a => { a with name := camelOfKebab a.name }) =
      Tag.publicAttributes .aura members := by
  rw [Tag.publicAttributes, Tag.publicAttributes, List.map_map]
  refine List.map_congr_left fun m hm => ?_
  obtain ⟨hmem, hapi⟩ := List.mem_filter.mp hm
  have hback := camelOfKebab_kebabOfCamel (h.uncapitalized m hmem (beq_iff_eq.mp hapi))
  simp [Member.asAttribute, Dialect.attributeName, hback]

end Names

namespace Tag

/-- A second mirror shows nothing new. -/
theorem mirror_mirror (t : Tag) : t.mirror.mirror = t.mirror := by
  have hattributes : t.mirror.mirror.attributes = t.mirror.attributes := by
    simp [mirror, camelOfKebab_camelOfKebab]
  exact congrArg (fun attributes => { t.mirror with attributes }) hattributes

section Mirrored

variable (identity : Identity) (file : Path) (modifiedAt : Nat) (documentation : Option String)
  (declaration : Option Span) {members : List Member}

/-- The mirror of a web component has everything that the component has, with a colon in its
identifier and each attribute under its declared name. -/
theorem mirror_ofMembers (h : Discernible members) :
    (ofMembers identity .lwc file modifiedAt documentation declaration members).mirror =
      { ofMembers identity .lwc file modifiedAt documentation declaration members with
        identity := identity.withDelimiter .colon
        attributes := publicAttributes .aura members } := by
  rw [mirror, attributes_ofMembers, h.map_camelOfKebab]
  rfl

theorem publicAttributes_aura :
    publicAttributes .aura members =
      (publicAttributes .lwc members).map fun a => { a with name := a.sourceName } := by
  simp [publicAttributes, Member.asAttribute, Dialect.attributeName]

/-- Each public member of a web component is found under its declared name and under the
hyphenated one. Its mirror finds it under the declared name, which is all that the mirror changes
besides the delimiter, and all that it changes when made again. -/
theorem attribute?_either_spelling (h : Discernible members) :
    let t := ofMembers identity .lwc file modifiedAt documentation declaration members
    (∀ m ∈ members, m.origin = .api →
      (∀ a ∈ t.attributes, a.sourceName = m.name ↔ a = m.asAttribute .lwc) ∧
      t.attribute? m.name = some (m.asAttribute .lwc) ∧
      t.attribute? (kebabOfCamel m.name) = some (m.asAttribute .lwc) ∧
      t.mirror.attribute? m.name = some { m.asAttribute .lwc with name := m.name }) ∧
    t.mirror = { t with
      identity := t.identity.withDelimiter .colon
      attributes := t.attributes.map fun a => { a with name := a.sourceName } } ∧
    t.mirror.key = t.key ∧
    t.mirror.mirror = t.mirror := by
  intro t
  have hmirror : t.mirror = { t with
      identity := t.identity.withDelimiter .colon
      attributes := publicAttributes .aura members } :=
    mirror_ofMembers identity file modifiedAt documentation declaration h
  refine ⟨fun m hm hapi => ⟨fun a ha => ⟨fun hsource => ?_, fun heq => heq ▸ rfl⟩, ?_, ?_, ?_⟩,
    ?_, t.key_mirror, t.mirror_mirror⟩
  · obtain ⟨n, hn, hnapi, rfl⟩ := mem_publicAttributes.mp ha
    rw [h.eq_of_names (d := .lwc) hm hapi hn hnapi (.inl rfl) (.inl hsource.symm)]
  · exact h.find?_publicAttributes hm hapi (.inl rfl)
  · exact h.find?_publicAttributes hm hapi (.inr rfl)
  · rw [hmirror]
    exact h.find?_publicAttributes (d := .aura) hm hapi (.inl rfl)
  · rw [hmirror, publicAttributes_aura]
    rfl

end Mirrored

namespace RowTable

/-- Public members with and without a raised letter, beside one of the component's own. -/
def members : List Member :=
  [⟨"maxRows", .property, .api, none, none, none⟩, ⟨"rows", .property, .api, none, none, none⟩,
    ⟨"refresh", .method, .plain, none, none, none⟩]

theorem discernible : Discernible members where
  distinct := by decide
  uncapitalized m hm _ := by
    have hcamel : ∀ m ∈ members, IsCamel m.name.toList := by decide +kernel
    exact (hcamel m hm).uncapitalized

end RowTable

theorem attribute?_either_spelling_rowTable :
    let t := ofMembers ⟨"c", "rowTable", .hyphen⟩ .lwc ⟨"c/rowTable.js"⟩ 0 none none
      RowTable.members
    (t.attribute? "max-rows").map Attribute.sourceName = some "maxRows" ∧
      t.mirror.attributes.map Attribute.name = ["maxRows", "rows"] := by
  intro t
  obtain ⟨hfound, hmirror, -⟩ := attribute?_either_spelling ⟨"c", "rowTable", .hyphen⟩
    ⟨"c/rowTable.js"⟩ 0 none none RowTable.discernible
  have hkebab : kebabOfCamel "maxRows" = "max-rows" := by decide +kernel
  constructor
  · obtain ⟨-, -, hhyphen, -⟩ := hfound _ List.mem_cons_self rfl
    rw [← hkebab, hhyphen]
    rfl
  · rw [hmirror]
    rfl

end Tag

end ComponentAtlas
