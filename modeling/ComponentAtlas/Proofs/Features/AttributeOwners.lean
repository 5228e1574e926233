import ComponentAtlas.Features.Definition
import ComponentAtlas.Proofs.Features.HoverRanges
import ComponentAtlas.Proofs.Markup.Ancestors

/-!
# The tag of an attribute

The name of an attribute stands in an attribute, and this in a tag or in one that was left
unfinished. An editor that asks about the name is answered for the element around it. That is the
element of the tag only when the tag belongs to an element: in the tag of a script or of a style
sheet, and in an unfinished tag, it is an element further out, or there is none.
-/

namespace ComponentAtlas

open ComponentAtlas.Text ComponentAtlas.Markup

/-- The tag with the attribute whose name is at an offset, and the node that it is the tag of. -/
structure Markup.Document.AttributeIn (d : Document) (o : Nat) (tag holder : Node) : Prop where
  within : d.root.Within holder
  child : tag ∈ holder.children
  named : ∃ a ∈ tag.children, a.kind = .attribute ∧ d.nodeAt o ∈ a.children
  kind : tag.kind = .error ∨ tag.kind.isTag = true ∧ holder.startTag? = some tag ∧
    (holder.kind = .element ∨ holder.kind = .scriptElement ∨ holder.kind = .styleElement)

/-- The tag of an element. -/
def Markup.Node.IsTagOf (tag holder : Node) : Prop :=
  tag.kind.isTag = true ∧ holder.kind = .element

section Attributes

variable {d : Document} {o : Nat} {tag holder e : Node}

theorem Markup.Document.AttributeIn.startTag?_eq (h : d.AttributeIn o tag holder)
    (htag : tag.kind.isTag = true) : holder.startTag? = some tag := by
  obtain herror | ⟨-, hstart, -⟩ := h.kind
  · exact absurd herror (Kind.ne_of_isTag htag rfl)
  · exact hstart

theorem Markup.Document.AttributeIn.kind_ne {k : Kind} (h : d.AttributeIn o tag holder)
    (herror : k ≠ .error) (htag : k.isTag = false) : tag.kind ≠ k := by
  obtain hkind | ⟨hkind, -⟩ := h.kind
  · exact hkind ▸ herror.symm
  · exact Kind.ne_of_isTag hkind htag

/-- Around the name of an attribute stand the attribute, its tag, and what has the tag. -/
theorem Markup.Document.exists_attributeIn (hd : d.Formed)
    (hkind : (d.nodeAt o).kind = .attributeName) : ∃ a tag holder outer,
      d.around o = d.nodeAt o :: a :: tag :: holder :: outer ∧ a.kind = .attribute ∧
        d.AttributeIn o tag holder := by
  have hroot : ∀ {x : Node}, x.kind ≠ .document → x ≠ d.root := fun hx heq =>
    hx (heq ▸ hd.formed.kind)
  obtain ⟨rest, haround, hchain, hlast⟩ := d.around_parents o
  have hshaped : ∀ x ∈ d.around o, d.root.Within x ∧ x.Shaped := fun x hx => by
    have hwithin := (Node.mem_chain d.root hx).1
    exact ⟨hwithin, hd.shaped.of_within hwithin⟩
  rw [haround] at hshaped ⊢
  obtain ⟨a, rest, rfl, hname, hchain, hlast⟩ :=
    Node.exists_parent (hroot (by simp [hkind])) hchain hlast
  have hattribute := (hshaped a (by simp)).2.attribute_of_name hname hkind
  obtain ⟨tag, rest, rfl, hmem, hchain, hlast⟩ :=
    Node.exists_parent (hroot (by simp [hattribute])) hchain hlast
  have htag := (hshaped tag (by simp)).2.holder_of_attribute hmem hattribute
  have htagroot : tag.kind ≠ .document := by
    obtain htag | htag := htag
    · exact Kind.ne_of_isTag htag rfl
    · simp [htag]
  obtain ⟨holder, outer, rfl, hchild, -, -⟩ := Node.exists_parent (hroot htagroot) hchain hlast
  obtain ⟨hwithin, hholder⟩ := hshaped holder (by simp)
  refine ⟨a, tag, holder, outer, rfl, hattribute, hwithin, hchild, ⟨a, hmem, hattribute, hname⟩, ?_⟩
  exact htag.symm.imp_right fun htag => ⟨htag, hholder.startTag?_of_tag hchild htag⟩

/-- The tag of an element is the one that its element is asked for. -/
theorem Markup.Document.elementAt?_of_isTagOf {a : Node} {outer : List Node}
    (haround : d.around o = d.nodeAt o :: a :: tag :: holder :: outer)
    (hname : (d.nodeAt o).kind = .attributeName) (ha : a.kind = .attribute)
    (htag : tag.IsTagOf holder) : d.elementAt? o = some holder := by
  have hkind : tag.kind ≠ .element := Kind.ne_of_isTag htag.1 rfl
  simp [Document.elementAt?, Document.elementsAround, haround, Node.is, hname, ha, hkind, htag.2]

/-- For any other tag an element further out is asked for, whose tag is another one. -/
theorem Markup.Document.AttributeIn.of_foreign {a : Node} {outer : List Node} (hd : d.Formed)
    (h : d.AttributeIn o tag holder)
    (haround : d.around o = d.nodeAt o :: a :: tag :: holder :: outer)
    (hname : (d.nodeAt o).kind = .attributeName) (ha : a.kind = .attribute)
    (hforeign : ¬ tag.IsTagOf holder) (he : d.elementAt? o = some e) :
    e.Within tag ∧ e.startTag? ≠ some tag := by
  obtain ⟨hwithin, hkind⟩ := Binding.elementAt?_spec he
  have htag : tag.kind ≠ .element := h.kind_ne (by decide) rfl
  have hmem : e ∈ holder :: outer := by
    have hmem := (List.mem_filter.mp (List.mem_of_head? he)).1
    have hne : ∀ {x : Node}, x.kind ≠ .element → e ≠ x := fun hx heq => hx (heq ▸ hkind)
    rw [haround] at hmem
    simpa [hne (x := d.nodeAt o) (by simp [hname]), hne (x := a) (by simp [ha]), hne htag]
      using hmem
  have hnested : (d.around o).Pairwise fun c p => p.Within c := Node.chain_nested d.root
  rw [haround] at hnested
  have hlater := (List.pairwise_cons.mp (List.pairwise_cons.mp hnested).2).2
  obtain ⟨htagin, hrest⟩ := List.pairwise_cons.mp hlater
  -- An element around that begins with the tag would be the one that holds the tag.
  refine ⟨htagin e hmem, fun hstart => hforeign ?_⟩
  obtain ⟨hchild, histag⟩ := Binding.startTag?_spec hstart
  have hpos := ((hd.formed.of_within (.child hwithin hchild)
    (Kind.ne_of_isTag histag rfl)).1.parts histag).1
  have hin : e.Within holder := by
    obtain rfl | houter := List.mem_cons.mp hmem
    · exact .self e
    · exact (List.pairwise_cons.mp hrest).1 e houter
  obtain rfl := hd.formed.parent_unique hwithin (by simp [hkind]) h.child hchild hpos hin
  exact ⟨histag, hkind⟩

end Attributes

section Answers

variable {ix : Index} {p : Path} {dialect : Dialect} {d : Document} {o : Nat}

theorem Definition.at?_of_attribute (hkind : (d.nodeAt o).kind = .attributeName) :
    at? ix p dialect d o = (((d.elementAt? o).bind d.tagName?).bind fun tag =>
      (ix.findTag? dialect tag).bind TagEntry.tag).bind fun t =>
        (t.attribute? (d.slice (d.nodeAt o).range)).bind fun a =>
          Location.ofPath? t.file a.location := by
  simp only [at?, hkind]
  cases d.elementAt? o with
  | none => rfl
  | some e =>
      simp only [Option.bind_some, Option.bind_eq_bind]
      cases d.tagName? e with
      | none => rfl
      | some tag =>
          simp only [Option.bind_some]
          cases ix.findTag? dialect tag <;> rfl

/-- An editor that asks about the name of an attribute is answered for one element. In the tag of an
element it is this element. In the tag of a script or of a style sheet, and in an unfinished tag, it
is the innermost element around, which has another tag, and without one there is no answer. -/
theorem Markup.Document.attributes_answered (ix : Index) (p : Path) (dialect : Dialect)
    (text : String) (o : Nat) (hkind : ((Document.read text).nodeAt o).kind = .attributeName) :
    let d := Document.read text
    let name := d.nodeAt o
    let asked := (d.elementAt? o).bind d.tagName?
    (Hover.at? ix p dialect d o = asked.bind fun tag =>
        ((ix.listAttributes dialect tag ++ Index.globalAttributes dialect).find? fun a =>
          a.name == d.slice name.range).map fun a =>
            ⟨Hover.ofAttribute a, d.spanOf name.range⟩) ∧
      (Definition.at? ix p dialect d o = (asked.bind fun tag =>
        (ix.findTag? dialect tag).bind TagEntry.tag).bind fun t =>
          (t.attribute? (d.slice name.range)).bind fun a => Location.ofPath? t.file a.location) ∧
      ∃ tag holder, d.AttributeIn o tag holder ∧
        (tag.range.start ≤ name.range.start ∧ name.range.stop ≤ tag.range.stop) ∧
        (tag.IsTagOf holder → d.elementAt? o = some holder ∧
          ∃ own, tag.child? .tagName = some own ∧ asked = some (d.slice own.range)) ∧
        (¬ tag.IsTagOf holder → asked = none ∧ (∀ e, ¬ d.Encloses o e) ∨
          ∃ e, d.Innermost o (fun _ => True) e ∧ asked = d.tagName? e ∧ e.Within tag ∧
            e.startTag? ≠ some tag) := by
  intro d name asked
  have hd : d.Formed := Document.formed_read text
  obtain ⟨a, tag, holder, outer, haround, ha, h⟩ := Document.exists_attributeIn hd hkind
  refine ⟨Hover.at?_of_attribute hkind, Definition.at?_of_attribute hkind, tag, holder, h, ?_,
    fun htag => ?_, fun hforeign => ?_⟩
  · obtain ⟨a, hmem, -, hname⟩ := h.named
    exact hd.formed.range_of_within (.child h.within h.child) (h.kind_ne (by decide) rfl)
      (.child (.child (.self tag) hmem) hname)
  · have helement := Document.elementAt?_of_isTagOf haround hkind ha htag
    obtain ⟨own, hown⟩ := (hd.shaped.of_within (.child h.within h.child)).exists_tagName htag.1
    refine ⟨helement, own, hown, ?_⟩
    simp [asked, helement, Document.tagName?, h.startTag?_eq htag.1, hown]
  · cases he : d.elementAt? o with
    | none =>
        refine .inl ⟨by simp only [asked, he, Option.bind_none], fun e hencloses => ?_⟩
        obtain ⟨inner, hinner, -⟩ := hencloses
        exact Option.some_ne_none inner (hinner.symm.trans he)
    | some e =>
        obtain ⟨hin, hother⟩ := h.of_foreign hd haround hkind ha hforeign he
        exact .inr ⟨e, (Document.elementAt?_eq_some hd).mp he,
          by simp only [asked, he, Option.bind_some], hin, hother⟩

end Answers

namespace Nested

/-- A component with the attribute that a script inside it has too. -/
def card : Tag :=
  .ofMembers ⟨"c", "card", .hyphen⟩ .lwc ⟨"/w/c/card/card.js"⟩ 5 none none
    [⟨"title", .property, .api, none, none, some ⟨0, 21, 0, 31⟩⟩]

def index : Index := ((Index.empty "c").commit .lwc [.upsert card]).1

def document : Document := .read "<c-card><script title=\"x\"></script></c-card>"

end Nested

/-- The attribute of the script is taken for the one of the component around. -/
theorem Markup.Document.attributes_answered_script :
    (Nested.document.nodeAt 16).kind = .attributeName ∧
      Hover.at? Nested.index ⟨"/w/c/page/page.html"⟩ .lwc Nested.document 16 =
        some ⟨"**title**", ⟨0, 16, 0, 21⟩⟩ ∧
      Definition.at? Nested.index ⟨"/w/c/page/page.html"⟩ .lwc Nested.document 16 =
        some ⟨"file:///w/c/card/card.js", ⟨0, 21, 0, 31⟩⟩ ∧
      ∃ tag holder, Nested.document.AttributeIn 16 tag holder ∧ ¬ tag.IsTagOf holder := by
  have hkind : (Nested.document.nodeAt 16).kind = .attributeName := by decide +kernel
  have hrange : (Nested.document.nodeAt 16).range = ⟨16, 21⟩ := by decide +kernel
  have hstart : ((Nested.document.elementAt? 16).bind Node.startTag?).map Node.range =
      some ⟨0, 8⟩ := by decide +kernel
  obtain ⟨-, -, tag, holder, h, ⟨-, hstop⟩, hown, -⟩ := Document.attributes_answered Nested.index
    ⟨"/w/c/page/page.html"⟩ .lwc "<c-card><script title=\"x\"></script></c-card>" 16 hkind
  refine ⟨hkind, by decide +kernel, by decide +kernel, tag, holder, h, fun htag => ?_⟩
  -- The element that is asked for ends its tag in front of the attribute.
  obtain ⟨helement, -⟩ := hown htag
  have hends : tag.range = ⟨0, 8⟩ := by
    change Nested.document.elementAt? 16 = some holder at helement
    rw [helement, Option.bind_some, h.startTag?_eq htag.1] at hstart
    exact Option.some.inj hstart
  change (Nested.document.nodeAt 16).range.stop ≤ tag.range.stop at hstop
  rw [hrange, hends] at hstop
  exact absurd hstop (by decide)

end ComponentAtlas
