import ComponentAtlas.Markup.Component
import ComponentAtlas.Proofs.Binding.Finding
import ComponentAtlas.Proofs.Binding.Scoping
import ComponentAtlas.Proofs.Metadata.Normalizing

/-!
# Declarations of an aura component

A component is compiled from the first top-level element in the namespace of the framework, while
the declaration of a name is looked for in the first top-level element. Both take the same children
for declarations, so they agree on a name if the two elements are one, and otherwise only on a name
that neither declares.
-/

namespace ComponentAtlas.Binding

open ComponentAtlas.Text ComponentAtlas.Markup

/-- An attribute declaration that is turned into a member with a name. -/
structure DeclaresMember (d : Document) (property : String) (e : Node) : Prop where
  tag : d.tagName? e = some "aura:attribute"
  member : ∃ m, d.member? e = some m ∧ m.name = property

/-- The span of the name in the first child of an element that declares a member with it. -/
def NamesMember (d : Document) (property : String) (element : Node) (span : Span) : Prop :=
  ∃ e r, First (DeclaresMember d property) element.elements e ∧
    Gives d "aura:attribute" "name" property e r ∧ span = d.spanOf r

/-- The element that a component is compiled from. -/
def IsComponent (d : Document) (element : Node) : Prop :=
  First (fun e => d.isFrameworkElement e = true) d.root.elements element

section Members

variable {d : Document} {e element component : Node} {property : String} {md : Metadata}

/-- A declaration is turned into a member if it bears a name, which is then that of the member. -/
theorem declaresMember_iff : DeclaresMember d property e ↔
    Bears d "aura:attribute" "name" property e := by
  have hmember : d.tagName? e = some "aura:attribute" →
      ((∃ m, d.member? e = some m ∧ m.name = property) ↔
        ∃ a, d.attribute? e "name" = some a ∧ a.value = some property) := by
    intro htag
    have hkind : d.memberKind? e = some .property := by simp [Document.memberKind?, htag]
    rw [← Option.bind_eq_some_iff, ← Document.valueOf?, Document.member?, hkind]
    cases d.valueOf? e "name" <;> simp
  constructor
  · rintro ⟨htag, h⟩
    exact ⟨htag, (hmember htag).mp h⟩
  · rintro ⟨htag, h⟩
    exact ⟨htag, (hmember htag).mpr h⟩

theorem exists_namesMember_iff : (∃ span, NamesMember d property element span) ↔
    ∃ e ∈ element.elements, DeclaresMember d property e := by
  rw [← exists_first_iff]
  constructor
  · rintro ⟨span, e, r, he, -⟩
    exact ⟨e, he⟩
  · rintro ⟨e, he⟩
    obtain ⟨r, hr⟩ := bears_iff.mp (declaresMember_iff.mp he.has)
    exact ⟨d.spanOf r, e, r, he, hr, rfl⟩

/-- A component has the members that its children declare. -/
theorem mem_names_metadata? (h : d.metadata? = some md) (hcomponent : IsComponent d component)
    (name : String) : name ∈ md.members.map ClassMember.name ↔
      ∃ e ∈ component.elements, ∃ m, d.member? e = some m ∧ m.name = name := by
  obtain ⟨root, hroot, rfl⟩ := Option.map_eq_some_iff.mp h
  obtain rfl : root = component :=
    Option.some.inj (hroot.symm.trans (find?_eq_some_iff_first.mpr hcomponent))
  rw [Metadata.mem_names_normalize]
  simp only [Metadata.entries, Metadata.targets, List.flatMap_nil, List.map_nil, List.append_nil,
    List.mem_map, List.mem_filterMap]
  constructor
  · rintro ⟨m, ⟨e, he, hm⟩, hname⟩
    exact ⟨e, he, m, hm, hname⟩
  · rintro ⟨e, he, m, hm, hname⟩
    exact ⟨m, ⟨e, he, hm⟩, hname⟩

end Members

section Elements

variable {d : Document} {property : String} {span : Span} {element first component : Node} {o : Nat}

/-- Where no iteration declares a name, the first top-level element does. -/
theorem declaringSpan?_eq_some (hd : d.Formed) (hfirst : d.rootElement? = some first)
    (hiteration : ∀ e, d.Encloses o e → ¬ Bears d "aura:iteration" "var" property e) :
    declaringSpan? .aura d o property = some span ↔ NamesMember d property first span := by
  have hbelow : ∀ r, declaration? .aura d o property = some r ↔
      ∃ e, First (DeclaresMember d property) first.elements e ∧
        Gives d "aura:attribute" "name" property e r := by
    intro r
    have hdeclares : DeclaresMember d property = Bears d "aura:attribute" "name" property :=
      funext fun e => propext declaresMember_iff
    rw [declaration?_aura hd, DeclaredInAura, and_iff_right hiteration, or_iff_right,
      DeclaredBelow, hdeclares]
    · simp only [hfirst, Option.some.injEq, exists_eq_left']
    · rintro ⟨e, hinner, -⟩
      exact hiteration e hinner.encloses hinner.has
  rw [declaringSpan?, Option.map_eq_some_iff, NamesMember, exists_comm]
  refine exists_congr fun r => ?_
  rw [hbelow, ← exists_and_right]
  refine exists_congr fun e => ?_
  rw [and_assoc, eq_comm]

/-- The name of a declaration stands in the element around it. -/
theorem NamesMember.inside (hd : d.Formed) (hwithin : d.root.Within element)
    (hkind : element.kind = .element) (h : NamesMember d property element span) :
    element.range.start < d.offsetAt span.start ∧ d.offsetAt span.start ≤ element.range.stop := by
  obtain ⟨e, r, he, ⟨-, a, ha, -, hr⟩, rfl⟩ := h
  obtain ⟨hmem, hinner⟩ := Node.mem_elements.mp he.mem
  obtain ⟨t, hvalue⟩ := valueIn_of_mem (.child hwithin hmem) hinner
    (List.mem_of_find?_eq_some ha) hr
  obtain ⟨hlo, hle, hhi⟩ := hvalue.inside hd.formed
  obtain ⟨-, hlaid⟩ := hd.formed.of_within hwithin fun hk => by rw [hkind] at hk; cases hk
  obtain ⟨hfront, hback, -⟩ := hlaid.of_mem hmem
  have hoffset : d.offsetAt (d.spanOf r).start = r.start :=
    offsetAt_positionAt (hvalue.bounds hd.formed).1
  omega

/-- Declarations in different elements of a document have their names at different places. -/
theorem eq_of_namesMember (hd : d.Formed) (hfirst : first ∈ d.root.elements)
    (hcomponent : component ∈ d.root.elements) (h : NamesMember d property first span)
    (h' : NamesMember d property component span) : first = component := by
  obtain ⟨hmem, hkind⟩ := Node.mem_elements.mp hfirst
  obtain ⟨hmem', hkind'⟩ := Node.mem_elements.mp hcomponent
  obtain ⟨hlo, hhi⟩ := h.inside hd (.child (.self _) hmem) hkind
  obtain ⟨hlo', hhi'⟩ := h'.inside hd (.child (.self _) hmem') hkind'
  obtain heq | hapart | hapart := hd.formed.laid.apart hmem hmem'
  · exact heq
  · omega
  · omega

/-- The two elements give a name the same declaration if they are one, or if neither declares
it. -/
theorem forall_namesMember_iff (hd : d.Formed) (hfirst : first ∈ d.root.elements)
    (hcomponent : component ∈ d.root.elements) :
    (∀ span, NamesMember d property first span ↔ NamesMember d property component span) ↔
      first = component ∨
        ∀ e ∈ first.elements ++ component.elements, ¬ DeclaresMember d property e := by
  constructor
  · intro hsame
    by_cases hnames : ∃ span, NamesMember d property first span
    · obtain ⟨span, hspan⟩ := hnames
      exact .inl (eq_of_namesMember hd hfirst hcomponent hspan ((hsame span).mp hspan))
    · refine .inr fun e he hdeclares => hnames ?_
      rcases List.mem_append.mp he with he | he
      · exact exists_namesMember_iff.mpr ⟨e, he, hdeclares⟩
      · obtain ⟨span, hspan⟩ := exists_namesMember_iff.mpr ⟨e, he, hdeclares⟩
        exact ⟨span, (hsame span).mpr hspan⟩
  · rintro (rfl | hnone) span
    · rfl
    · have hnames : ∀ n : Node, (∀ e ∈ n.elements, ¬ DeclaresMember d property e) →
          ¬ NamesMember d property n span := by
        intro n hn hspan
        obtain ⟨e, he, hdeclares⟩ := exists_namesMember_iff.mp ⟨span, hspan⟩
        exact hn e he hdeclares
      rw [List.forall_mem_append] at hnone
      exact iff_of_false (hnames _ hnone.1) (hnames _ hnone.2)

end Elements

/-- A name that no iteration around an offset declares is declared by the first top-level element:
it has a declaration exactly if a child of that element is turned into a member with the name, and
then the declaration is the name in the first such child. This is the declaration in the element
that the component is compiled from exactly if that is the first top-level element, or if neither
of the two declares the name. -/
theorem declaringSpan?_compiled {source file : String} {md : Metadata}
    (h : Markup.metadata source file = .ok md) {o : Nat} {property : String}
    (hiteration : ∀ e, (Document.read source).Encloses o e →
      ¬ Bears (.read source) "aura:iteration" "var" property e) :
    let d := Document.read source
    ∃ first component, d.rootElement? = some first ∧ IsComponent d component ∧
      (first = component ↔ d.isFrameworkElement first = true) ∧
      (∀ name, name ∈ md.members.map ClassMember.name ↔
        ∃ e ∈ component.elements, ∃ m, d.member? e = some m ∧ m.name = name) ∧
      (∀ span, declaringSpan? .aura d o property = some span ↔
        NamesMember d property first span) ∧
      ((declaringSpan? .aura d o property).isSome = true ↔
        ∃ e ∈ first.elements, DeclaresMember d property e) ∧
      ((∀ span, declaringSpan? .aura d o property = some span ↔
          NamesMember d property component span) ↔
        first = component ∨
          ∀ e ∈ first.elements ++ component.elements, ¬ DeclaresMember d property e) := by
  intro d
  have hd : d.Formed := Document.formed_read source
  have hmd : d.metadata? = some md := by
    rw [Markup.metadata] at h
    split at h
    · next m hm => rw [hm, Except.ok.inj h]
    · cases h
  obtain ⟨component, hfound, -⟩ := Option.map_eq_some_iff.mp hmd
  have hcomponent : IsComponent d component := find?_eq_some_iff_first.mp hfound
  obtain ⟨first, hfirst⟩ := Option.isSome_iff_exists.mp
    (List.isSome_head?.mpr (List.ne_nil_of_mem hcomponent.mem))
  have hspan : ∀ span, declaringSpan? .aura d o property = some span ↔
      NamesMember d property first span :=
    fun _ => declaringSpan?_eq_some hd hfirst hiteration
  refine ⟨first, component, hfirst, hcomponent, hcomponent.head_eq_iff hfirst,
    mem_names_metadata? hmd hcomponent, hspan, ?_, ?_⟩
  · simp only [Option.isSome_iff_exists, hspan, exists_namesMember_iff]
  · simp only [hspan]
    exact forall_namesMember_iff hd (List.mem_of_head? hfirst) hcomponent.mem

/-- A component behind another element. -/
def leadingElement : String :=
  "<div></div><aura:component><aura:attribute name=\"title\"/>\x7b!v.title\x7d</aura:component>"

/-- The component has a member for the name, but the name has no declaration. -/
theorem declaringSpan?_compiled_leadingElement : ∃ md,
    Markup.metadata leadingElement "a.cmp" = .ok md ∧
      md.members.map ClassMember.name = ["title"] ∧
      declaringSpan? .aura (.read leadingElement) 62 "title" = none := by
  have hnames : (Markup.metadata leadingElement "a.cmp").toOption.map (fun md =>
      md.members.map ClassMember.name) = some ["title"] := by decide +kernel
  have hfront : (Document.read leadingElement).rootElement?.map (fun e => e.elements.length) =
      some 0 := by decide +kernel
  have hiteration : ((Document.read leadingElement).elementsAround 62).findSome?
      (iterationVariable? (.read leadingElement) "title") = none := by decide +kernel
  rw [Document.findSome?_elementsAround_eq_none (Document.formed_read _)] at hiteration
  cases hmd : Markup.metadata leadingElement "a.cmp" with
  | error _ =>
      rw [hmd] at hnames
      cases hnames
  | ok md =>
      rw [hmd] at hnames
      refine ⟨md, rfl, Option.some.inj hnames, ?_⟩
      obtain ⟨first, component, hfirst, -, -, -, -, hsome, -⟩ := declaringSpan?_compiled hmd
        fun e he => iterationVariable?_eq_none.mp (hiteration e he)
      rw [hfirst] at hfront
      have hempty : first.elements = [] := List.length_eq_zero_iff.mp (Option.some.inj hfront)
      refine Option.not_isSome_iff_eq_none.mp fun h => ?_
      obtain ⟨e, he, -⟩ := hsome.mp h
      rw [hempty] at he
      cases he

end ComponentAtlas.Binding
