import ComponentAtlas.Features.Hover
import ComponentAtlas.Proofs.Binding.Finding

/-!
# The range of a hover

What is shown for a cursor is about a name of the document: that of a tag, of an attribute or of a
property. An editor is told the span of this name. It is the span around the cursor, and an editor
that reads it finds the name again, whatever characters the document consists of.
-/

namespace ComponentAtlas

open ComponentAtlas.Text ComponentAtlas.Markup

/-- A range around an offset that is cut between characters. -/
structure Markup.Document.Spans (d : Document) (r : ByteRange) (o : Nat) : Prop where
  start : r.start ∈ boundaries 0 d.text
  stop : r.stop ∈ boundaries 0 d.text
  touches : r.touches o = true

section Spans

variable {d : Document} {r : ByteRange} {o : Nat}

/-- The span of a range around an offset is around its position. -/
theorem Markup.Document.Spans.positions (h : d.Spans r o) :
    (d.spanOf r).start ≤ d.positionAt o ∧ d.positionAt o ≤ (d.spanOf r).stop := by
  obtain ⟨hlo, hhi⟩ := Binding.touches_iff.mp h.touches
  exact ⟨positionAt_mono hlo, positionAt_mono hhi⟩

/-- The span of a range between characters is read back as the range. -/
theorem Markup.Document.Spans.offsets (h : d.Spans r o) :
    (⟨d.offsetAt (d.spanOf r).start, d.offsetAt (d.spanOf r).stop⟩ : ByteRange) = r := by
  have hstart : d.offsetAt (d.spanOf r).start = r.start := offsetAt_positionAt h.start
  have hstop : d.offsetAt (d.spanOf r).stop = r.stop := offsetAt_positionAt h.stop
  rw [hstart, hstop]

/-- A node that is not the whole document spans the offsets at which it is. -/
theorem Markup.Document.spans_nodeAt (hd : d.root.Formed d.text) (ho : o ≤ byteSize d.text)
    (hkind : (d.nodeAt o).kind ≠ .document) : d.Spans (d.nodeAt o).range o := by
  obtain ⟨hwithin, hself | hholds⟩ := Binding.within_of_mem_around (Binding.nodeAt_mem d o)
  · exact absurd (hself ▸ hd.kind) hkind
  · obtain ⟨hsound, -⟩ := hd.of_within hwithin hkind
    rw [Nat.min_eq_left ho] at hholds
    simp only [Node.holds, Bool.and_eq_true, Bool.or_eq_true, decide_eq_true_eq,
      beq_iff_eq] at hholds
    exact ⟨hsound.start, hsound.stop, Binding.touches_iff.mpr (by omega)⟩

/-- A binding spans the offsets at which it is found, and its property is the text there. -/
theorem Binding.spans_of_at? {dialect : Dialect} {b : Binding} (hd : d.root.Formed d.text)
    (h : Binding.at? dialect d o = some b) : d.Spans b.range o ∧ b.property = d.slice b.range := by
  rw [at?_eq] at h
  obtain ⟨r, hfound, hb⟩ := Option.bind_eq_some_iff.mp h
  obtain ⟨hregion, -⟩ := region_of_region? hfound
  have hmem := List.mem_of_find?_eq_some hb
  obtain ⟨hstart, hstop⟩ := binding_boundaries hd hregion hmem
  have htouches := List.find?_some hb
  exact ⟨⟨hstart, hstop, htouches⟩, (inside_region hd hregion hmem).1⟩

end Spans

namespace Hover

variable {ix : Index} {p : Path} {dialect : Dialect} {d : Document} {o : Nat} {shown : Hover}

/-- What is shown at an offset about a name. -/
inductive Shows (ix : Index) (p : Path) (dialect : Dialect) (d : Document) (o : Nat) :
    String → String → Prop where
  | tag {name : String} {e : TagEntry} (hkind : (d.nodeAt o).kind = .tagName)
      (he : ix.findTag? dialect name = some e) : Shows ix p dialect d o name (ofEntry e)
  | attribute {tag : String} {a : Attribute} (hkind : (d.nodeAt o).kind = .attributeName)
      (htag : (d.elementAt? o).bind d.tagName? = some tag)
      (ha : a ∈ ix.listAttributes dialect tag ++ Index.globalAttributes dialect) :
      Shows ix p dialect d o a.name (ofAttribute a)
  | variable {b : Binding} (hdialect : dialect = .lwc) (hb : Binding.at? dialect d o = some b)
      (hdeclared : (Binding.declaration? dialect d o b.property).isSome = true) :
      Shows ix p dialect d o b.property (ofVariable b.property)
  | member {b : Binding} {owner : Tag} {m : Member} (hb : Binding.at? dialect d o = some b)
      (howner : ix.owner? dialect p = some owner) (hm : owner.member? b.property = some m) :
      Shows ix p dialect d o b.property (ofMember owner m)

theorem at?_of_tag (hkind : (d.nodeAt o).kind = .tagName) : at? ix p dialect d o =
    (ix.findTag? dialect (d.slice (d.nodeAt o).range)).map fun e =>
      ⟨ofEntry e, d.spanOf (d.nodeAt o).range⟩ := by
  simp only [at?, hkind]
  cases ix.findTag? dialect (d.slice (d.nodeAt o).range) <;> rfl

theorem at?_of_attribute (hkind : (d.nodeAt o).kind = .attributeName) : at? ix p dialect d o =
    ((d.elementAt? o).bind d.tagName?).bind fun tag =>
      ((ix.listAttributes dialect tag ++ Index.globalAttributes dialect).find? fun a =>
        a.name == d.slice (d.nodeAt o).range).map fun a =>
          ⟨ofAttribute a, d.spanOf (d.nodeAt o).range⟩ := by
  simp only [at?, hkind]
  cases d.elementAt? o with
  | none => rfl
  | some e =>
      simp only [Option.bind_some, Option.bind_eq_bind, Option.pure_def]
      cases d.tagName? e with
      | none => rfl
      | some tag => simp only [Option.bind_some, Option.map_eq_bind]; rfl

theorem at?_of_other (htag : (d.nodeAt o).kind ≠ .tagName)
    (hattribute : (d.nodeAt o).kind ≠ .attributeName) :
    at? ix p dialect d o = atBinding? ix p dialect d o := by
  simp only [at?]

theorem exists_of_atBinding? (hd : d.root.Formed d.text)
    (h : atBinding? ix p dialect d o = some shown) : ∃ r, d.Spans r o ∧ shown.span = d.spanOf r ∧
      Shows ix p dialect d o (d.slice r) shown.markdown := by
  simp only [atBinding?, Option.bind_eq_bind, Option.pure_def] at h
  obtain ⟨b, hb, h⟩ := Option.bind_eq_some_iff.mp h
  obtain ⟨hspans, hproperty⟩ := Binding.spans_of_at? hd hb
  refine ⟨b.range, hspans, ?_⟩
  rw [← hproperty]
  split at h
  · next hdeclared =>
    obtain rfl := Option.some.inj h
    exact ⟨rfl, .variable hdeclared.1 hb hdeclared.2⟩
  · obtain ⟨owner, howner, h⟩ := Option.bind_eq_some_iff.mp h
    obtain ⟨m, hm, h⟩ := Option.bind_eq_some_iff.mp h
    obtain rfl := Option.some.inj h
    exact ⟨rfl, .member hb howner hm⟩

/-- What is shown is about the text of a range around the offset. -/
theorem exists_of_at? (hd : d.root.Formed d.text) (ho : o ≤ byteSize d.text)
    (h : at? ix p dialect d o = some shown) : ∃ r, d.Spans r o ∧ shown.span = d.spanOf r ∧
      Shows ix p dialect d o (d.slice r) shown.markdown := by
  by_cases htag : (d.nodeAt o).kind = .tagName
  · rw [at?_of_tag htag] at h
    obtain ⟨e, he, rfl⟩ := Option.map_eq_some_iff.mp h
    exact ⟨_, Document.spans_nodeAt hd ho (by simp [htag]), rfl, .tag htag he⟩
  · by_cases hattribute : (d.nodeAt o).kind = .attributeName
    · rw [at?_of_attribute hattribute] at h
      obtain ⟨tag, htag, h⟩ := Option.bind_eq_some_iff.mp h
      obtain ⟨a, ha, rfl⟩ := Option.map_eq_some_iff.mp h
      have hname : a.name = d.slice (d.nodeAt o).range := by simpa using List.find?_some ha
      refine ⟨_, Document.spans_nodeAt hd ho (by simp [hattribute]), rfl, ?_⟩
      exact hname ▸ .attribute hattribute htag (List.mem_of_find?_eq_some ha)
    · rw [at?_of_other htag hattribute] at h
      exact exists_of_atBinding? hd h

/-- The span of a hover is around the cursor, and the text between its ends, read back as an editor
reads it, is the name that the hover is about. -/
theorem at?_spans_name {ix : Index} {p : Path} {dialect : Dialect} {text : String}
    {position : Position} {shown : Hover} (hsize : byteSize text.toList < 2 ^ 32)
    (h : at? ix p dialect (.read text) ((Document.read text).offsetAt position) = some shown) :
    (shown.span.start ≤
        (Document.read text).positionAt ((Document.read text).offsetAt position) ∧
      (Document.read text).positionAt ((Document.read text).offsetAt position) ≤
        shown.span.stop) ∧
    ((shown.span.startLine < 2 ^ 32 ∧ shown.span.startCol < 2 ^ 32) ∧
      shown.span.endLine < 2 ^ 32 ∧ shown.span.endCol < 2 ^ 32) ∧
    Shows ix p dialect (.read text) ((Document.read text).offsetAt position)
      ((Document.read text).slice ⟨(Document.read text).offsetAt shown.span.start,
        (Document.read text).offsetAt shown.span.stop⟩) shown.markdown := by
  have hd : (Document.read text).root.Formed (Document.read text).text :=
    readNode_formed text.toList
  have ho : (Document.read text).offsetAt position ≤ byteSize (Document.read text).text :=
    offsetAt_le text.toList position
  obtain ⟨r, hspans, hspan, hshows⟩ := exists_of_at? hd ho h
  have hfits : ∀ o, ((Document.read text).positionAt o).line < 2 ^ 32 ∧
      ((Document.read text).positionAt o).character < 2 ^ 32 := fun o => by
    obtain ⟨hline, hcolumn⟩ := positionAt_le_byteSize text.toList o
    exact ⟨Nat.lt_of_le_of_lt hline hsize, Nat.lt_of_le_of_lt hcolumn hsize⟩
  rw [hspan]
  refine ⟨hspans.positions, ⟨hfits r.start, hfits r.stop⟩, ?_⟩
  rw [hspans.offsets]
  exact hshows

/-- A template in which an expression stands behind a character of two UTF-16 units. -/
def astral : String := "<a for:item=\"x\">😀\x7bx\x7d</a>"

theorem at?_spans_name_astral :
    byteSize astral.toList < 2 ^ 32 ∧
      at? (.empty "c") ⟨"/ws/lwc/a/a.html"⟩ .lwc (.read astral)
        ((Document.read astral).offsetAt ⟨0, 19⟩) =
          some ⟨"**x** (*iteration variable*)", ⟨0, 19, 0, 20⟩⟩ ∧
      Shows (.empty "c") ⟨"/ws/lwc/a/a.html"⟩ .lwc (.read astral)
        ((Document.read astral).offsetAt ⟨0, 19⟩)
        ((Document.read astral).slice ⟨(Document.read astral).offsetAt ⟨0, 19⟩,
          (Document.read astral).offsetAt ⟨0, 20⟩⟩) "**x** (*iteration variable*)" := by
  have hsize : byteSize astral.toList < 2 ^ 32 := by decide
  have hshown : at? (.empty "c") ⟨"/ws/lwc/a/a.html"⟩ .lwc (.read astral)
      ((Document.read astral).offsetAt ⟨0, 19⟩) =
        some ⟨"**x** (*iteration variable*)", ⟨0, 19, 0, 20⟩⟩ := by decide +kernel
  exact ⟨hsize, hshown, (at?_spans_name hsize hshown).2.2⟩

end Hover

end ComponentAtlas
