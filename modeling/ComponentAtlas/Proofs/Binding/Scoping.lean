import ComponentAtlas.Binding.Resolve
import ComponentAtlas.Proofs.Markup.Ancestors

/-!
# Scopes of variables

A variable of a template is declared by an attribute, and seen from wherever the element of the
attribute is around. A declaration hides those of the elements further out. The attributes of an
aura component are seen from everywhere, but an iteration hides them.
-/

namespace ComponentAtlas.Binding

open ComponentAtlas.Text ComponentAtlas.Markup

section First

variable {α β : Type} {f : α → Option β} {p : α → Prop} {R : α → β → Prop} {items : List α} {a : α}
  {b : β}

/-- The first one of some items that has a property. -/
def First (p : α → Prop) (items : List α) (a : α) : Prop :=
  ∃ front back, items = front ++ a :: back ∧ p a ∧ ∀ x ∈ front, ¬ p x

theorem First.mem (h : First p items a) : a ∈ items := by
  obtain ⟨front, back, rfl, -⟩ := h
  exact List.mem_append_right _ List.mem_cons_self

theorem First.has (h : First p items a) : p a := by
  obtain ⟨front, back, -, ha, -⟩ := h
  exact ha

theorem find?_eq_some_iff_first {f : α → Bool} :
    items.find? f = some a ↔ First (fun x => f x = true) items a := by
  rw [List.find?_eq_some_iff_append]
  constructor
  · rintro ⟨ha, front, back, hitems, hfront⟩
    exact ⟨front, back, hitems, ha, fun x hx => by simpa using hfront x hx⟩
  · rintro ⟨front, back, hitems, ha, hfront⟩
    exact ⟨ha, front, back, hitems, fun x hx => by simpa using hfront x hx⟩

theorem exists_first_iff : (∃ a, First p items a) ↔ ∃ a ∈ items, p a := by
  classical
  have hfirst : ∀ a, items.find? (fun x => decide (p x)) = some a ↔ First p items a := by
    intro a
    rw [find?_eq_some_iff_first]
    simp only [decide_eq_true_iff]
  simp only [← hfirst, ← Option.isSome_iff_exists, List.find?_isSome, decide_eq_true_iff]

/-- The first item of all is the first one with a property exactly if it has it. -/
theorem First.head_eq_iff {head : α} (h : First p items a) (hhead : items.head? = some head) :
    head = a ↔ p head := by
  refine ⟨fun heq => heq ▸ h.has, fun hp => ?_⟩
  obtain ⟨front, back, rfl, -, hfront⟩ := h
  cases front with
  | nil => exact (Option.some.inj hhead).symm
  | cons c front =>
      obtain rfl := Option.some.inj hhead
      exact absurd hp (hfront c List.mem_cons_self)

/-- A search ends at the first item for which there is something. -/
theorem findSome?_eq_some_iff_first (hf : ∀ a b, f a = some b ↔ R a b)
    (hp : ∀ a ∈ items, p a ↔ ∃ b, R a b) :
    items.findSome? f = some b ↔ ∃ a, First p items a ∧ R a b := by
  rw [List.findSome?_eq_some_iff]
  constructor
  · rintro ⟨front, a, back, rfl, hb, hfront⟩
    have hr := (hf a b).mp hb
    refine ⟨a, ⟨front, back, rfl, (hp a (by simp)).mpr ⟨b, hr⟩, fun x hx hpx => ?_⟩, hr⟩
    obtain ⟨b', hb'⟩ := (hp x (by simp [hx])).mp hpx
    exact nomatch (hfront x hx).symm.trans ((hf x b').mpr hb')
  · rintro ⟨a, ⟨front, back, rfl, -, hfront⟩, hr⟩
    refine ⟨front, a, back, rfl, (hf a b).mpr hr, fun x hx => ?_⟩
    refine Option.eq_none_iff_forall_ne_some.mpr fun b' hb' => hfront x hx ?_
    exact (hp x (by simp [hx])).mpr ⟨b', (hf x b').mp hb'⟩

theorem findSome?_isSome_iff_exists (hf : ∀ a b, f a = some b ↔ R a b)
    (hp : ∀ a ∈ items, p a ↔ ∃ b, R a b) :
    (items.findSome? f).isSome = true ↔ ∃ a ∈ items, p a := by
  rw [List.findSome?_isSome_iff]
  refine exists_congr fun a => and_congr_right fun ha => ?_
  rw [hp a ha]
  simp only [Option.isSome_iff_exists, hf]

end First

/-- Whether an attribute of a template declares a variable. -/
def Declaring (property : String) (a : TagAttribute) : Prop :=
  a.name = "for:item" ∧ a.value = some property ∨ a.name = "iterator:" ++ property

/-- The range that names the variable in its attribute: the value, or the whole name. -/
inductive Names (property : String) (a : TagAttribute) : ByteRange → Prop where
  | item {r : ByteRange} (hname : a.name = "for:item") (hvalue : a.value = some property)
      (hr : a.valueRange = some r) : Names property a r
  | iterator (hname : a.name = "iterator:" ++ property) : Names property a a.nameRange

/-- An element with an attribute that declares a variable. -/
def Declares (d : Document) (property : String) (e : Node) : Prop :=
  ∃ a ∈ d.attributes e, Declaring property a

/-- An element with a tag in which the value of an attribute is a given one. -/
def Bears (d : Document) (tag name value : String) (e : Node) : Prop :=
  d.tagName? e = some tag ∧ ∃ a, d.attribute? e name = some a ∧ a.value = some value

/-- The range of that value. -/
structure Gives (d : Document) (tag name value : String) (e : Node) (r : ByteRange) : Prop where
  tag : d.tagName? e = some tag
  given : ∃ a, d.attribute? e name = some a ∧ a.value = some value ∧ a.valueRange = some r

section Attributes

variable {d : Document} {e : Node} {a : TagAttribute} {r : ByteRange}
  {property tag name value : String}

/-- An attribute has a value where it has a range for it. -/
theorem value_eq_slice (ha : a ∈ d.attributes e) : a.value = a.valueRange.map d.slice := by
  rw [Document.attributes] at ha
  split at ha
  · cases ha
  · obtain ⟨n, -, hn⟩ := List.mem_filterMap.mp ha
    obtain ⟨name, -, rfl⟩ := Option.map_eq_some_iff.mp hn
    rfl

theorem exists_valueRange (ha : a ∈ d.attributes e) (hvalue : a.value = some value) :
    ∃ r, a.valueRange = some r := by
  obtain ⟨r, hr, -⟩ := Option.map_eq_some_iff.mp ((value_eq_slice ha).symm.trans hvalue)
  exact ⟨r, hr⟩

theorem templateDeclaration?_eq_some :
    templateDeclaration? property a = some r ↔ Names property a r := by
  rw [templateDeclaration?]
  constructor
  · intro h
    split at h
    · next hitem =>
      simp only [Bool.and_eq_true, beq_iff_eq] at hitem
      exact .item hitem.1 hitem.2 h
    · split at h
      · next hname =>
        obtain rfl := Option.some.inj h
        exact .iterator (eq_of_beq hname)
      · cases h
  · rintro (⟨hname, hvalue, hr⟩ | hname)
    · simp [hname, hvalue, hr]
    · have hitem : a.name ≠ "for:item" := fun h => by
        have := congrArg String.toList (h.symm.trans hname)
        simp at this
      simp [hname, hname ▸ hitem]

theorem declaring_iff (ha : a ∈ d.attributes e) :
    Declaring property a ↔ ∃ r, Names property a r := by
  constructor
  · rintro (⟨hname, hvalue⟩ | hname)
    · obtain ⟨r, hr⟩ := exists_valueRange ha hvalue
      exact ⟨r, .item hname hvalue hr⟩
    · exact ⟨_, .iterator hname⟩
  · rintro ⟨r, ⟨hname, hvalue, -⟩ | hname⟩
    · exact .inl ⟨hname, hvalue⟩
    · exact .inr hname

theorem gives_iff :
    (if d.tagName? e = some tag then namedValue? d e name value else none) = some r ↔
      Gives d tag name value e r := by
  split
  · next htag =>
    simp only [namedValue?, Option.bind_eq_some_iff, Option.filter_eq_some_iff, beq_iff_eq,
      and_assoc]
    exact ⟨.mk htag, Gives.given⟩
  · next htag => exact ⟨nofun, fun h => absurd h.tag htag⟩

theorem iterationVariable?_eq_some : iterationVariable? d property e = some r ↔
    Gives d "aura:iteration" "var" property e r :=
  gives_iff

theorem declaredAttribute?_eq_some : declaredAttribute? d property e = some r ↔
    Gives d "aura:attribute" "name" property e r :=
  gives_iff

theorem bears_iff : Bears d tag name value e ↔ ∃ r, Gives d tag name value e r := by
  constructor
  · rintro ⟨htag, a, ha, hvalue⟩
    obtain ⟨r, hr⟩ := exists_valueRange (List.mem_of_find?_eq_some ha) hvalue
    exact ⟨r, htag, a, ha, hvalue, hr⟩
  · rintro ⟨r, htag, a, ha, hvalue, -⟩
    exact ⟨htag, a, ha, hvalue⟩

theorem iterationVariable_isSome : (iterationVariable? d property e).isSome = true ↔
    Bears d "aura:iteration" "var" property e := by
  simp only [Option.isSome_iff_exists, iterationVariable?_eq_some, bears_iff]

theorem iterationVariable?_eq_none : iterationVariable? d property e = none ↔
    ¬ Bears d "aura:iteration" "var" property e := by
  rw [← iterationVariable_isSome, Option.isSome_iff_ne_none, not_not]

theorem templateDeclaration_isSome : ((d.attributes e).findSome?
    (templateDeclaration? property)).isSome = true ↔ Declares d property e :=
  findSome?_isSome_iff_exists (fun _ _ => templateDeclaration?_eq_some) fun _ ha => declaring_iff ha

end Attributes

section Declarations

variable {d : Document} {r : ByteRange} {o : Nat} {property : String}

/-- What names a variable of a template for an offset: the first attribute that declares it, on the
innermost element around the offset that has such an attribute. -/
def DeclaredAround (d : Document) (o : Nat) (property : String) (r : ByteRange) : Prop :=
  ∃ e, d.Innermost o (Declares d property) e ∧
    ∃ a, First (Declaring property) (d.attributes e) a ∧ Names property a r

theorem declaration?_template (hd : d.Formed) : declaration? .lwc d o property = some r ↔
    DeclaredAround d o property r := by
  rw [declaration?, Document.findSome?_elementsAround hd]
  simp only [templateDeclaration_isSome]
  refine exists_congr fun e => and_congr_right fun _ => ?_
  exact findSome?_eq_some_iff_first (fun _ _ => templateDeclaration?_eq_some)
    fun _ ha => declaring_iff ha

theorem declaration?_template_eq_none (hd : d.Formed) : declaration? .lwc d o property = none ↔
    ∀ e, d.Encloses o e → ¬ Declares d property e := by
  rw [declaration?, Document.findSome?_elementsAround_eq_none hd]
  simp only [← templateDeclaration_isSome, Option.isSome_iff_ne_none, not_not]

/-- What the component itself declares, by the first one of its elements that does. -/
def DeclaredBelow (d : Document) (property : String) (r : ByteRange) : Prop :=
  ∃ root, d.rootElement? = some root ∧
    ∃ e, First (Bears d "aura:attribute" "name" property) root.elements e ∧
      Gives d "aura:attribute" "name" property e r

theorem rootDeclaration_eq_some : (d.rootElement?.bind fun root =>
    root.elements.findSome? (declaredAttribute? d property)) = some r ↔
      DeclaredBelow d property r := by
  rw [Option.bind_eq_some_iff]
  refine exists_congr fun root => and_congr_right fun _ => ?_
  exact findSome?_eq_some_iff_first (fun _ _ => declaredAttribute?_eq_some) fun _ _ => bears_iff

theorem rootDeclaration_eq_none : (d.rootElement?.bind fun root =>
    root.elements.findSome? (declaredAttribute? d property)) = none ↔
      ∀ root, d.rootElement? = some root → ∀ e ∈ root.elements,
        ¬ Bears d "aura:attribute" "name" property e := by
  rw [Option.bind_eq_none_iff]
  refine forall₂_congr fun root _ => ?_
  rw [List.findSome?_eq_none_iff]
  simp only [Option.eq_none_iff_forall_ne_some, ne_eq, declaredAttribute?_eq_some, bears_iff,
    not_exists]

/-- What declares a name of aura markup for an offset: the innermost iteration around the offset
that does, and the component only where there is no such iteration. -/
def DeclaredInAura (d : Document) (o : Nat) (property : String) (r : ByteRange) : Prop :=
  (∃ e, d.Innermost o (Bears d "aura:iteration" "var" property) e ∧
    Gives d "aura:iteration" "var" property e r) ∨
  (∀ e, d.Encloses o e → ¬ Bears d "aura:iteration" "var" property e) ∧ DeclaredBelow d property r

theorem declaration?_aura (hd : d.Formed) : declaration? .aura d o property = some r ↔
    DeclaredInAura d o property r := by
  rw [DeclaredInAura, declaration?, Option.or_eq_some_iff, Document.findSome?_elementsAround hd,
    Document.findSome?_elementsAround_eq_none hd, rootDeclaration_eq_some]
  simp only [iterationVariable_isSome, iterationVariable?_eq_some, iterationVariable?_eq_none]

theorem declaration?_aura_eq_none (hd : d.Formed) : declaration? .aura d o property = none ↔
    (∀ e, d.Encloses o e → ¬ Bears d "aura:iteration" "var" property e) ∧
      ∀ root, d.rootElement? = some root → ∀ e ∈ root.elements,
        ¬ Bears d "aura:attribute" "name" property e := by
  rw [declaration?, Option.or_eq_none_iff, Document.findSome?_elementsAround_eq_none hd,
    rootDeclaration_eq_none]
  simp only [iterationVariable?_eq_none]

/-- The declaration of a name is that of the innermost element around the offset that declares it,
and there is none only if no element around the offset does. In aura markup a component declares
its attributes for the whole document where no iteration does. The elements around an offset are
those in whose range it is. -/
theorem declaringSpan?_scoped (text : String) (o : Nat) (property : String) :
    (∀ span, declaringSpan? .lwc (.read text) o property = some span ↔
      ∃ r, DeclaredAround (.read text) o property r ∧ span = (Document.read text).spanOf r) ∧
    (declaringSpan? .lwc (.read text) o property = none ↔
      ∀ e, (Document.read text).Encloses o e → ¬ Declares (.read text) property e) ∧
    (∀ span, declaringSpan? .aura (.read text) o property = some span ↔
      ∃ r, DeclaredInAura (.read text) o property r ∧ span = (Document.read text).spanOf r) ∧
    (declaringSpan? .aura (.read text) o property = none ↔
      (∀ e, (Document.read text).Encloses o e →
        ¬ Bears (.read text) "aura:iteration" "var" property e) ∧
        ∀ root, (Document.read text).rootElement? = some root → ∀ e ∈ root.elements,
          ¬ Bears (.read text) "aura:attribute" "name" property e) ∧
    ∀ e, (Document.read text).Encloses o e ↔ (Document.read text).root.Within e ∧
      e.kind = .element ∧ e.range.start ≤ o ∧ o < e.range.stop := by
  generalize hread : Document.read text = d
  have hd : d.Formed := hread ▸ Document.formed_read text
  refine ⟨fun span => ?_, ?_, fun span => ?_, ?_, fun e => Document.encloses_iff hd⟩
  · rw [declaringSpan?, Option.map_eq_some_iff]
    simp only [declaration?_template hd]
    exact exists_congr fun r => and_congr_right fun _ => eq_comm
  · rw [declaringSpan?, Option.map_eq_none_iff, declaration?_template_eq_none hd]
  · rw [declaringSpan?, Option.map_eq_some_iff]
    simp only [declaration?_aura hd]
    exact exists_congr fun r => and_congr_right fun _ => eq_comm
  · rw [declaringSpan?, Option.map_eq_none_iff, declaration?_aura_eq_none hd]

/-- The inner one of two iterations hides the outer one, and is not seen outside of itself. -/
example : declaration? .lwc (.read "<a for:item=x><b for:item=x></b>\x7bx\x7d</a>") 28 "x" =
      some ⟨26, 27⟩ ∧
    declaration? .lwc (.read "<a for:item=x><b for:item=x></b>\x7bx\x7d</a>") 33 "x" =
      some ⟨12, 13⟩ := by
  decide +kernel

end Declarations

end ComponentAtlas.Binding
