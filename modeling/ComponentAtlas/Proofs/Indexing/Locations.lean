import ComponentAtlas.Indexing.Compile
import ComponentAtlas.Proofs.Markup.Reading
import ComponentAtlas.Proofs.Metadata.Normalizing
import ComponentAtlas.Proofs.Provider.Listing
import ComponentAtlas.Proofs.Script.Reading
import ComponentAtlas.Proofs.Text.Columns
import ComponentAtlas.Tag.Basic

/-!
# Recorded locations

A tag records where its component and each of its members are declared: the range of the root
element or of the class, and that of the first element or class member with the name. The recorded
columns are byte columns, so they are those of an editor exactly where a line has only ASCII in
front.
-/

namespace ComponentAtlas

open ComponentAtlas.Text

/-- What a source declares: the range of its component, and its members with their ranges in
order. -/
structure Declared where
  component : ByteRange
  members : List (String × ByteRange)
  deriving DecidableEq

/-- The ranges that are recorded. -/
def Declared.ranges (D : Declared) : List ByteRange :=
  D.component :: D.members.map Prod.snd

/-- The declarations of a document: its root element, and the elements in it that declare
members. -/
def Markup.Document.declared? (d : Document) : Option Declared :=
  (d.root.elements.find? d.isFrameworkElement).map fun root =>
    ⟨root.range, root.elements.filterMap fun e => (d.member? e).map fun m => (m.name, e.range)⟩

/-- The declarations of a class: the class, and its members that belong to the component. -/
def Script.ClassNode.declared (c : ClassNode) : Declared :=
  ⟨c.range, (c.members.filter MemberNode.isInstance).map fun m => (m.name, m.range)⟩

/-- The class of the component in a script, as far as the script can be read. -/
def Script.componentClass? (source : String) (file : String) : Option ClassNode :=
  let text := source.toList
  match (readProgram false text).found with
  | some (_, program :: _) => program.componentClass? text
  | _ =>
      if isTyped file then
        match (readProgram true text).found with
        | some (_, program :: _) => program.componentClass? text
        | _ => none
      else none

/-- What a source of a dialect declares. -/
def Dialect.declared? (d : Dialect) (source file : String) : Option Declared :=
  match d with
  | .lwc => (Script.componentClass? source file).map Script.ClassNode.declared
  | .aura => (Markup.Document.read source).declared?

section Normalize

/-- The name and the range of a member. -/
def ClassMember.located (m : ClassMember) : String × Option SourceRange := (m.name, m.range)

/-- Decorators on members that are there change no name and no range. -/
theorem normalize_located {md : Metadata} (h : ∀ d ∈ md.decorators, ∀ t ∈ d.targets,
      t.name ∈ (md.members.map ClassMember.located).map Prod.fst) :
    md.normalize.members.map ClassMember.located =
      firstsBy Prod.fst (md.members.map ClassMember.located) := by
  have htargets : ∀ t ∈ md.targets, t.2.name ∈ md.members.map ClassMember.name := by
    intro t ht
    obtain ⟨d, hd, -, ht⟩ := Metadata.mem_targets.mp ht
    have hmem := h d hd t.2 ht
    rw [List.map_map] at hmem
    exact hmem
  rw [Metadata.normalize_members, Metadata.firstsBy_entries htargets, List.map_map, firstsBy_map]
  rfl

end Normalize

section Decorators

theorem mem_addTarget_targets {kind : DecoratorKind} {target t : DecoratorTarget}
    {found : List Decorator} {d : Decorator} (hd : d ∈ Script.addTarget kind target found)
    (ht : t ∈ d.targets) : t = target ∨ ∃ d' ∈ found, t ∈ d'.targets := by
  induction found with
  | nil =>
      obtain rfl := List.mem_singleton.mp hd
      exact .inl (List.mem_singleton.mp ht)
  | cons first rest ih =>
      rw [Script.addTarget] at hd
      split at hd
      · obtain rfl | hd := List.mem_cons.mp hd
        · obtain ht | ht := List.mem_append.mp ht
          · exact .inr ⟨first, List.mem_cons_self, ht⟩
          · exact .inl (List.mem_singleton.mp ht)
        · exact .inr ⟨d, List.mem_cons_of_mem first hd, ht⟩
      · obtain rfl | hd := List.mem_cons.mp hd
        · exact .inr ⟨d, List.mem_cons_self, ht⟩
        · obtain rfl | ⟨d', hd', ht'⟩ := ih hd
          · exact .inl rfl
          · exact .inr ⟨d', List.mem_cons_of_mem first hd', ht'⟩

/-- The targets of the decorators are members. -/
theorem name_of_decoratorsOf {members : List ClassMember} {d : Decorator} {t : DecoratorTarget}
    (hd : d ∈ Script.decoratorsOf members) (ht : t ∈ d.targets) :
    t.name ∈ (members.map ClassMember.located).map Prod.fst := by
  induction members using List.reverseRecOn generalizing d with
  | nil => cases hd
  | append_singleton members m ih =>
      rw [List.map_append, List.map_append, List.mem_append]
      rw [Script.decoratorsOf, List.foldl_append, List.foldl_cons, List.foldl_nil] at hd
      split at hd
      · obtain rfl | ⟨d', hd', ht'⟩ := mem_addTarget_targets hd ht
        · exact .inr (List.mem_singleton_self _)
        · exact .inl (ih hd' ht')
      · exact .inl (ih hd ht)

end Decorators

section Recording

variable {text : List Char} {source file : String} {md : Metadata} {D : Declared}

/-- The metadata records the ranges of what is declared, for each name the first one. -/
structure Metadata.Records (md : Metadata) (text : List Char) (D : Declared) : Prop where
  declaration : md.declaration = some (.ofBytes text D.component)
  members : md.members.map ClassMember.located =
    (firstsBy Prod.fst D.members).map fun (name, r) => (name, some (.ofBytes text r))

theorem records_normalize (hdeclaration : md.declaration = some (.ofBytes text D.component))
    (hmembers : md.members.map ClassMember.located =
      D.members.map fun (name, r) => (name, some (.ofBytes text r)))
    (htargets : ∀ d ∈ md.decorators, ∀ t ∈ d.targets,
      t.name ∈ (md.members.map ClassMember.located).map Prod.fst) :
    md.normalize.Records text D := by
  refine ⟨hdeclaration, ?_⟩
  rw [normalize_located htargets, hmembers, firstsBy_map]

theorem Markup.range_of_member? {d : Document} {e : Node} {m : ClassMember}
    (h : d.member? e = some m) : m.range = some (.ofBytes d.text e.range) := by
  simp only [Document.member?, Option.bind_eq_bind] at h
  obtain ⟨kind, -, h⟩ := Option.bind_eq_some_iff.mp h
  obtain ⟨name, -, h⟩ := Option.bind_eq_some_iff.mp h
  rw [← Option.some.inj h]

theorem Markup.records_metadata {d : Document} (h : d.metadata? = some md) :
    ∃ D, d.declared? = some D ∧ md.Records d.text D := by
  obtain ⟨root, hroot, rfl⟩ := Option.map_eq_some_iff.mp h
  refine ⟨_, by rw [Document.declared?, hroot]; rfl,
    records_normalize rfl ?_ fun d hd => nomatch hd⟩
  simp only [List.map_filterMap, Option.map_map]
  refine List.filterMap_congr fun e _ => Option.map_congr fun m hm => ?_
  simp only [ClassMember.located, Function.comp_apply, range_of_member? hm]

theorem Script.records_metadata (c : ClassNode) : (c.metadata text).Records text c.declared := by
  refine records_normalize rfl ?_ fun d hd t ht => name_of_decoratorsOf hd ht
  simp only [ClassNode.declared, List.map_map]
  rfl

theorem Script.metadata_eq_ok (h : Script.metadata source file = .ok md) :
    md = ((componentClass? source file).map (ClassNode.metadata source.toList)).getD .empty := by
  rw [Script.metadata] at h
  rw [componentClass?]
  simp only at h ⊢
  generalize (readProgram false source.toList).found = strict at h ⊢
  rcases strict with _ | ⟨_, _ | ⟨program, rest⟩⟩
  case some.cons => exact (Except.ok.inj h).symm
  all_goals
    dsimp only at h ⊢
    generalize ite (isTyped file = true) _ _ = found at h ⊢
    cases found with
    | none => cases h
    | some c => exact (Except.ok.inj h).symm

/-- A source that compiles declares what its metadata records, or nothing at all. -/
theorem compile_records {d : Dialect} (h : d.compile source file = .ok md) :
    (d.declared? source file = none ∧ md = .empty) ∨
      ∃ D, d.declared? source file = some D ∧ md.Records source.toList D := by
  cases d with
  | aura =>
      rw [Dialect.compile, Markup.metadata] at h
      split at h
      · next m hm =>
        obtain rfl := Except.ok.inj h
        exact .inr (Markup.records_metadata hm)
      · cases h
  | lwc =>
      have hmd := Script.metadata_eq_ok h
      cases hc : Script.componentClass? source file with
      | none =>
          rw [hc] at hmd
          exact .inl ⟨by rw [Dialect.declared?, hc]; rfl, hmd⟩
      | some c =>
          rw [hc] at hmd
          exact .inr ⟨c.declared, by rw [Dialect.declared?, hc]; rfl,
            hmd ▸ Script.records_metadata c⟩

end Recording

namespace Sample

end Sample

end ComponentAtlas
