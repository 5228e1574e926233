import ComponentAtlas.Binding.Resolve
import ComponentAtlas.Proofs.Binding.Scanning
import ComponentAtlas.Proofs.Markup.Reading

/-!
# The binding under a cursor

A region is a text of a document or the value of an attribute. A cursor that touches a region is
answered by the binding that it touches there, and by nothing if there is none. The place in front
of an element is the exception: the tag that begins there hides the region that ends there.
-/

namespace ComponentAtlas.Binding

open ComponentAtlas.Text ComponentAtlas.Markup

/-- A text of a document, or the value of an attribute in the tag of an element. -/
inductive Region (d : Document) : ByteRange → Prop where
  | text {t : Node} (h : d.root.Within t) (hkind : t.kind = .text) : Region d t.range
  | value {e : Node} {a : TagAttribute} {r : ByteRange} (h : d.root.Within e)
      (hkind : e.kind = .element) (ha : a ∈ d.attributes e) (hr : a.valueRange = some r) :
      Region d r

/-- The bindings of a region, at their places in the document. -/
def bindingsIn (dialect : Dialect) (d : Document) (r : ByteRange) : List Binding :=
  (scan dialect (r.slice d.text)).map fun b => b.shift r.start

/-- A tag begins at an offset. -/
def TagAt (d : Document) (o : Nat) : Prop :=
  ∃ t, d.root.Within t ∧ t.kind.isTag = true ∧ t.range.start = o

theorem touches_iff {r : ByteRange} {o : Nat} :
    r.touches o = true ↔ r.start ≤ o ∧ o ≤ r.stop := by
  simp [ByteRange.touches]

section Values

variable {d : Document} {e t : Node} {r r' : ByteRange} {o : Nat}

theorem startTag?_spec (h : e.startTag? = some t) : t ∈ e.children ∧ t.kind.isTag = true := by
  refine ⟨List.mem_of_find?_eq_some h, ?_⟩
  have hkind := List.find?_some h
  simp only [Node.is, Bool.or_eq_true, beq_iff_eq] at hkind
  obtain hkind | hkind := hkind <;> rw [hkind] <;> rfl

/-- The value of an attribute in the tag of an element. -/
structure ValueIn (d : Document) (e t : Node) (r : ByteRange) : Prop where
  within : d.root.Within e
  element : e.kind = .element
  tag : e.startTag? = some t
  node : ∃ n ∈ t.children, n.kind = .attribute ∧ n.valueRange? = some r

theorem ValueIn.within_tag (h : ValueIn d e t r) : d.root.Within t :=
  .child h.within (startTag?_spec h.tag).1

theorem valueIn_of_mem {a : TagAttribute} (he : d.root.Within e) (hkind : e.kind = .element)
    (ha : a ∈ d.attributes e) (hr : a.valueRange = some r) : ∃ t, ValueIn d e t r := by
  rw [Document.attributes] at ha
  split at ha
  · cases ha
  · next t htag =>
    obtain ⟨n, hn, hattribute⟩ := List.mem_filterMap.mp ha
    obtain ⟨hmem, hn⟩ := List.mem_filter.mp hn
    obtain ⟨name, -, rfl⟩ := Option.map_eq_some_iff.mp hattribute
    exact ⟨t, he, hkind, htag, n, hmem, eq_of_beq hn, hr⟩

/-- A value stands in its tag, behind the start. It ends where the tag ends only if no text begins
there. -/
theorem ValueIn.bounds (hd : d.root.Formed d.text) (h : ValueIn d e t r) :
    r.start ∈ boundaries 0 d.text ∧ r.stop ∈ boundaries 0 d.text ∧ t.range.start < r.start ∧
      r.start ≤ r.stop ∧ r.stop ≤ t.range.stop ∧
      (r.stop = t.range.stop → NoText d.text t.range.stop) := by
  obtain ⟨n, hn, hkind, hvalue⟩ := h.node
  have htag := (startTag?_spec h.tag).2
  obtain ⟨hsound, hlaid⟩ := hd.of_within h.within_tag fun hk => by rw [hk] at htag; cases htag
  obtain ⟨-, hhi, hn', -⟩ := hlaid.of_mem hn
  obtain ⟨-, hbehind, hlast⟩ := hsound.parts htag
  obtain ⟨hstart, hstop, hlt, hle, hend⟩ := hn'.value hkind r hvalue
  have := hbehind n hn hkind
  refine ⟨hstart, hstop, by omega, hle, by omega, fun heq => hlast.resolve_left fun hshort => ?_⟩
  have := hshort n hn hkind
  omega

/-- A value stands in its element. -/
theorem ValueIn.inside (hd : d.root.Formed d.text) (h : ValueIn d e t r) :
    e.range.start < r.start ∧ r.start ≤ r.stop ∧ r.stop ≤ e.range.stop := by
  obtain ⟨-, -, hlo, hle, hhi, -⟩ := h.bounds hd
  obtain ⟨-, hlaid⟩ := hd.of_within h.within fun hk => by rw [h.element] at hk; cases hk
  obtain ⟨htag, htag', -⟩ := hlaid.of_mem (startTag?_spec h.tag).1
  exact ⟨by omega, hle, by omega⟩

/-- A cursor touches at most one value of a tag. -/
theorem ValueIn.unique (hd : d.root.Formed d.text) (h : ValueIn d e t r) (h' : ValueIn d e t r')
    (ho : r.touches o = true) (ho' : r'.touches o = true) : r = r' := by
  obtain ⟨n, hn, hkind, hvalue⟩ := h.node
  obtain ⟨n', hn', hkind', hvalue'⟩ := h'.node
  rw [touches_iff] at ho ho'
  have htag := (startTag?_spec h.tag).2
  obtain ⟨-, hlaid⟩ := hd.of_within h.within_tag fun hk => by rw [hk] at htag; cases htag
  obtain ⟨-, -, hlt, -, hle⟩ := (hlaid.of_mem hn).2.2.1.value hkind r hvalue
  obtain ⟨-, -, hlt', -, hle'⟩ := (hlaid.of_mem hn').2.2.1.value hkind' r' hvalue'
  obtain rfl | hapart | hapart := hlaid.apart hn hn'
  · exact Option.some.inj (hvalue.symm.trans hvalue')
  · omega
  · omega

/-- The value that a cursor touches among the attributes of an element. -/
def valueAt? (d : Document) (e : Node) (o : Nat) : Option ByteRange :=
  ((d.attributes e).find? fun a => a.valueTouches o).bind TagAttribute.valueRange

theorem valueIn_of_valueAt? (he : d.root.Within e) (hkind : e.kind = .element)
    (h : valueAt? d e o = some r) : (∃ t, ValueIn d e t r) ∧ r.touches o = true := by
  obtain ⟨a, ha, hr⟩ := Option.bind_eq_some_iff.mp h
  refine ⟨valueIn_of_mem he hkind (List.mem_of_find?_eq_some ha) hr, ?_⟩
  have htouches := List.find?_some ha
  rwa [TagAttribute.valueTouches, hr] at htouches

theorem valueAt?_eq_some (hd : d.root.Formed d.text) {a : TagAttribute} (he : d.root.Within e)
    (hkind : e.kind = .element) (ha : a ∈ d.attributes e) (hr : a.valueRange = some r)
    (ho : r.touches o = true) : valueAt? d e o = some r := by
  obtain ⟨t, h⟩ := valueIn_of_mem he hkind ha hr
  cases hfind : (d.attributes e).find? fun a => a.valueTouches o with
  | none =>
      refine absurd ?_ (List.find?_eq_none.mp hfind a ha)
      rw [TagAttribute.valueTouches, hr]
      exact ho
  | some b =>
      have htouches := List.find?_some hfind
      cases hq : b.valueRange with
      | none => simp [TagAttribute.valueTouches, hq] at htouches
      | some q =>
          rw [TagAttribute.valueTouches, hq] at htouches
          obtain ⟨t', h'⟩ := valueIn_of_mem he hkind (List.mem_of_find?_eq_some hfind) hq
          obtain rfl : t = t' := Option.some.inj (h.tag.symm.trans h'.tag)
          rw [valueAt?, hfind, Option.bind_some, hq, h.unique hd h' ho htouches]

end Values

section Probes

variable {d : Document} {e t x : Node} {r : ByteRange} {o p : Nat}

theorem around_eq (hd : d.root.Formed d.text) (hx : d.root.Within e) (ht : t ∈ e.children)
    (hkind : t.kind ≠ .document) (hstart : t.range.start ≤ p) (hstop : p < t.range.stop) :
    ∃ outer, d.around p = Node.chain p t ++ e :: outer := by
  have hle := le_of_mem_boundaries (hd.of_within (.child hx ht) hkind).1.stop
  rw [Document.around, Nat.min_eq_left (by omega)]
  exact chain_of_child hd.laid hx ht hstart hstop

theorem isTag_iff : t.kind.isTag = true ↔ (t.is .startTag || t.is .selfClosingTag) = true := by
  cases hk : t.kind <;> simp [Node.is, Kind.isTag, hk]

theorem find?_tag {nodes : List Node} (hk : t.kind.isTag = true) (hmem : t ∈ nodes)
    (hinner : ∀ n ∈ nodes, n = t ∨ n.kind.isInner = true) :
    (nodes.find? fun n => n.is .startTag || n.is .selfClosingTag || n.is .element ||
      n.is .document) = some t := by
  cases hfind : nodes.find? _ with
  | none =>
      have := List.find?_eq_none.mp hfind t hmem
      simp [isTag_iff.mp hk] at this
  | some n =>
      have hn := List.find?_some hfind
      obtain rfl | h := hinner n (List.mem_of_find?_eq_some hfind)
      · rfl
      · cases hk' : n.kind <;> simp_all [Node.is, Kind.isInner, Kind.isPart]

/-- Around an offset in the tag of an element stands the tag, and then the element. -/
theorem probe_tag (hd : d.root.Formed d.text) (he : d.root.Within e) (hkind : e.kind = .element)
    (htag : e.startTag? = some t) (hstart : t.range.start ≤ p) (hstop : p < t.range.stop) :
    regionAt d o p = some (valueAt? d e o) := by
  obtain ⟨hmem, hk⟩ := startTag?_spec htag
  obtain ⟨outer, houter⟩ := around_eq hd he hmem (fun h => by rw [h] at hk; cases hk) hstart hstop
  have hinner : ∀ n ∈ Node.chain p t, n = t ∨ n.kind.isInner = true := fun n hn =>
    hd.isInner (.child he hmem) hk (Node.mem_chain t hn).1
  have hin : inStartTag (d.around p) = true := by
    rw [inStartTag, houter, List.find?_append, find?_tag hk t.self_mem_chain hinner]
    simp only [Option.some_or]
    exact isTag_iff.mp hk
  have helement : d.elementAt? p = some e := by
    have hnone : (Node.chain p t).filter (fun n => n.is .element) = [] := by
      refine List.filter_eq_nil_iff.mpr fun n hn => ?_
      obtain rfl | hinner := hinner n hn
      · cases hk' : n.kind <;> simp_all [Node.is, Kind.isTag]
      · cases hk' : n.kind <;> simp_all [Node.is, Kind.isInner, Kind.isPart]
    rw [Document.elementAt?, Document.elementsAround, houter, List.filter_append, hnone,
      List.nil_append, List.filter_cons_of_pos (by simp [Node.is, hkind]), List.head?_cons]
  rw [regionAt, if_pos hin, helement]
  rfl

/-- Around an offset in a text stands the text, and then an element or the document. -/
theorem probe_text (hd : d.root.Formed d.text) (ht : d.root.Within t) (hkind : t.kind = .text)
    (hstart : t.range.start ≤ p) (hstop : p < t.range.stop) (ho : t.range.touches o = true) :
    regionAt d o p = some (some t.range) := by
  have hleaf := hd.children_of_text ht hkind
  cases ht with
  | self =>
      rw [hd.kind] at hkind
      cases hkind
  | @child n _ hn hmem =>
      obtain ⟨outer, houter⟩ := around_eq hd hn hmem (by simp [hkind]) hstart hstop
      rw [Node.chain_of_leaf hleaf] at houter
      have hin : inStartTag (d.around p) = false := by
        rw [inStartTag, houter]
        obtain hn | hn := Kind.eq_of_mayHold_text (hkind ▸ hd.mayHold hn hmem) <;>
          simp [Node.is, hkind, hn]
      have hnode : d.nodeAt p = t := by
        rw [Document.nodeAt, houter]
        rfl
      have htext : t.is .text = true := by simp [Node.is, hkind]
      simp only [regionAt, hin, hnode, htext, ho, Bool.and_self, if_true, Bool.false_eq_true,
        if_false]

end Probes

section Regions

variable {d : Document} {e t x : Node} {r : ByteRange} {o p : Nat}

/-- A text or a tag with its region: at the offsets in it, a cursor that touches the region is
answered by the region. It begins together with its region only where a text begins, and ends
together with it only where none does. -/
structure Reads (d : Document) (x : Node) (r : ByteRange) : Prop where
  within : d.root.Within x
  kind : x.kind.isTag = true ∨ x.kind = .text
  lt : x.range.start < x.range.stop
  start : x.range.start ≤ r.start
  stop : r.stop ≤ x.range.stop
  first : r.start = x.range.start → TextAt d.text x.range.start
  last : r.stop = x.range.stop → NoText d.text x.range.stop
  probe : ∀ o p, r.touches o = true → x.range.start ≤ p → p < x.range.stop →
    regionAt d o p = some (some r)

theorem Region.reads (hd : d.root.Formed d.text) (h : Region d r) : ∃ x, Reads d x r := by
  cases h with
  | @text t ht hkind =>
      obtain ⟨hsound, -⟩ := hd.of_within ht (by simp [hkind])
      obtain ⟨hlt, hfirst, hlast⟩ := hsound.run hkind
      exact ⟨t, ht, .inr hkind, hlt, Nat.le_refl _, Nat.le_refl _, fun _ => hfirst, fun _ => hlast,
        fun o p ho hstart hstop => probe_text hd ht hkind hstart hstop ho⟩
  | @value e a r he hkind ha hr =>
      obtain ⟨t, h⟩ := valueIn_of_mem he hkind ha hr
      obtain ⟨-, -, hlt, hle, hend, hlast⟩ := h.bounds hd
      refine ⟨t, h.within_tag, .inl (startTag?_spec h.tag).2, by omega, by omega, hend,
        fun heq => absurd heq (by omega), hlast, fun o p ho hstart hstop => ?_⟩
      rw [probe_tag hd he hkind h.tag hstart hstop, valueAt?_eq_some hd he hkind ha hr ho]

theorem Region.bounds (hd : d.root.Formed d.text) (h : Region d r) :
    r.start ∈ boundaries 0 d.text ∧ r.stop ∈ boundaries 0 d.text ∧ r.start ≤ r.stop := by
  cases h with
  | @text t ht hkind =>
      obtain ⟨hsound, -⟩ := hd.of_within ht (by simp [hkind])
      exact ⟨hsound.start, hsound.stop, Nat.le_of_lt (hsound.run hkind).1⟩
  | @value e a r he hkind ha hr =>
      obtain ⟨t, h⟩ := valueIn_of_mem he hkind ha hr
      obtain ⟨hstart, hstop, -, hle, -⟩ := h.bounds hd
      exact ⟨hstart, hstop, hle⟩

theorem within_of_mem_around (h : x ∈ d.around p) :
    d.root.Within x ∧ (x = d.root ∨ x.holds (min p (byteSize d.text)) = true) :=
  Node.mem_chain d.root h

theorem elementAt?_spec (h : d.elementAt? p = some e) : d.root.Within e ∧ e.kind = .element := by
  obtain ⟨hmem, hkind⟩ := List.mem_filter.mp (List.mem_of_head? h)
  exact ⟨(within_of_mem_around hmem).1, eq_of_beq hkind⟩

theorem nodeAt_mem (d : Document) (p : Nat) : d.nodeAt p ∈ d.around p := by
  rw [Document.nodeAt]
  cases hchain : d.around p with
  | nil => exact absurd hchain (Node.chain_ne_nil _ _)
  | cons n rest => exact List.mem_cons_self ..

theorem region_of_regionAt (h : regionAt d o p = some (some r)) :
    Region d r ∧ r.touches o = true := by
  simp only [regionAt] at h
  split at h
  · obtain ⟨a, ha, hr⟩ := Option.bind_eq_some_iff.mp (Option.some.inj h)
    obtain ⟨e, he, hfind⟩ := Option.bind_eq_some_iff.mp ha
    obtain ⟨hwithin, hkind⟩ := elementAt?_spec he
    have htouches := List.find?_some hfind
    rw [TagAttribute.valueTouches, hr] at htouches
    exact ⟨.value hwithin hkind (List.mem_of_find?_eq_some hfind) hr, htouches⟩
  · split at h
    · next hnode =>
      simp only [Bool.and_eq_true] at hnode
      obtain rfl := Option.some.inj (Option.some.inj h)
      exact ⟨.text (within_of_mem_around (nodeAt_mem d p)).1 (eq_of_beq hnode.1), hnode.2⟩
    · cases h

theorem tag_of_regionAt (h : regionAt d o p = some none) :
    ∃ t ∈ d.around p, t.kind.isTag = true := by
  simp only [regionAt] at h
  split at h
  · next hin =>
    rw [inStartTag] at hin
    split at hin
    · next t hfind => exact ⟨t, List.mem_of_find?_eq_some hfind, isTag_iff.mpr hin⟩
    · cases hin
  · split at h <;> cases h

theorem region_of_region? (h : region? d o = some r) : Region d r ∧ r.touches o = true := by
  rw [region?] at h
  split at h
  · next hat =>
    exact region_of_regionAt (h ▸ hat)
  · cases hat : regionAt d o (o - 1) with
    | none => simp [hat] at h
    | some q =>
        rw [hat, Option.getD_some] at h
        exact region_of_regionAt (h ▸ hat)

/-- A cursor touches at most one region. -/
theorem Region.unique (hd : d.root.Formed d.text) {r' : ByteRange} (h : Region d r)
    (h' : Region d r') (ho : r.touches o = true) (ho' : r'.touches o = true) : r = r' := by
  -- Where one of two nodes ends and the other one begins, a text would begin and none would.
  have hnever : ∀ {x y : Node} {r r' : ByteRange}, Reads d x r → Reads d y r' →
      r.touches o = true → r'.touches o = true → ¬ x.range.stop ≤ y.range.start := by
    intro x y r r' hx hy ho ho' hle
    rw [touches_iff] at ho ho'
    have h₁ := hx.stop
    have h₂ := hy.start
    have hlast := hx.last (by omega)
    obtain ⟨front, c, back, htext, hsize, hc⟩ := hy.first (by omega)
    have := hlast front c back htext (by omega)
    rw [hc] at this
    cases this
  obtain ⟨x, hx⟩ := h.reads hd
  obtain ⟨y, hy⟩ := h'.reads hd
  obtain rfl | hle | hle := hd.apart hx.within hy.within hx.kind hy.kind
  · have hr := hx.probe o _ ho (Nat.le_refl _) hx.lt
    have hr' := hy.probe o _ ho' (Nat.le_refl _) hy.lt
    exact Option.some.inj (Option.some.inj (hr.symm.trans hr'))
  · exact absurd hle (hnever hx hy ho ho')
  · exact absurd hle (hnever hy hx ho' ho)

/-- A cursor that touches a region is answered by the region, unless it is at the end of the region
and in front of a tag. -/
theorem region?_spec (hd : d.root.Formed d.text) (h : Region d r) (ho : r.touches o = true) :
    region? d o = some r ∨ region? d o = none ∧ o = r.stop ∧ TagAt d o := by
  cases hfound : region? d o with
  | some r' =>
      obtain ⟨h', ho'⟩ := region_of_region? hfound
      exact .inl (congrArg some (h'.unique hd h ho' ho))
  | none =>
      obtain ⟨x, hx⟩ := h.reads hd
      have hstart := hx.start
      have hstop := hx.stop
      have hlt := hx.lt
      obtain ⟨hlo, hhi⟩ := touches_iff.mp ho
      have hend : o = x.range.stop := by
        by_contra hne
        rw [region?, hx.probe o o ho (by omega) (by omega)] at hfound
        cases hfound
      have hnone : regionAt d o o = some none := by
        cases hat : regionAt d o o with
        | none =>
            rw [region?, hat, hx.probe o (o - 1) ho (by omega) (by omega)] at hfound
            cases hfound
        | some q =>
            rw [region?, hat] at hfound
            exact congrArg some hfound
      obtain ⟨t, ht, hkind⟩ := tag_of_regionAt hnone
      obtain ⟨hwithin, hholds⟩ := within_of_mem_around ht
      have hsize : o ≤ byteSize d.text := by
        have := le_of_mem_boundaries (h.bounds hd).2.1
        omega
      refine .inr ⟨rfl, by omega, t, hwithin, hkind, ?_⟩
      obtain rfl | hholds := hholds
      · rw [hd.kind] at hkind
        cases hkind
      · rw [Nat.min_eq_left hsize] at hholds
        simp only [Node.holds, Bool.and_eq_true, decide_eq_true_eq, Bool.or_eq_true,
          beq_iff_eq] at hholds
        obtain rfl | hapart | hapart := hd.apart hx.within hwithin hx.kind (.inl hkind)
        · omega
        · omega
        · omega

/-- A cursor in front of an element is answered by nothing. -/
theorem region?_start (hd : d.root.Formed d.text) (he : d.root.Within e) (hkind : e.kind = .element)
    (htag : e.startTag? = some t) : region? d t.range.start = none := by
  obtain ⟨hmem, hk⟩ := startTag?_spec htag
  obtain ⟨hsound, -⟩ := hd.of_within (.child he hmem) fun h => by rw [h] at hk; cases hk
  have hnone : valueAt? d e t.range.start = none := by
    by_contra hsome
    obtain ⟨r, hr⟩ := Option.ne_none_iff_exists'.mp hsome
    obtain ⟨⟨t', h⟩, ho⟩ := valueIn_of_valueAt? he hkind hr
    obtain rfl : t = t' := Option.some.inj (htag.symm.trans h.tag)
    obtain ⟨-, -, hlt, -⟩ := h.bounds hd
    rw [touches_iff] at ho
    omega
  rw [region?, probe_tag hd he hkind htag (Nat.le_refl _) (hsound.parts hk).1, hnone]

end Regions

section Slices

variable {text : List Char} {r : ByteRange}

theorem sliceBytes_eq (front mid back : List Char) :
    sliceBytes (byteSize front) (byteSize front + byteSize mid) (front ++ mid ++ back) = mid := by
  have hdrop : dropBytes (byteSize front) (front ++ (mid ++ back)) = mid ++ back := by
    have hsplit := takeBytes_append_dropBytes (byteSize front) (front ++ (mid ++ back))
    rw [takeBytes_byteSize] at hsplit
    exact List.append_cancel_left hsplit
  rw [sliceBytes, List.append_assoc, hdrop, Nat.add_sub_cancel_left, takeBytes_byteSize]

theorem exists_slice (hstart : r.start ∈ boundaries 0 text) (hstop : r.stop ∈ boundaries 0 text)
    (hle : r.start ≤ r.stop) : ∃ front back, text = front ++ r.slice text ++ back ∧
      byteSize front = r.start ∧ byteSize front + byteSize (r.slice text) = r.stop := by
  obtain ⟨front, hfront, hsize⟩ := mem_boundaries.mp hstart
  obtain ⟨longer, hlonger, hsize'⟩ := mem_boundaries.mp hstop
  obtain ⟨mid, rfl⟩ : front <+: longer := by
    have := prefix_takeBytes hfront (show byteSize front ≤ byteSize longer by omega)
    rwa [takeBytes_of_front hlonger] at this
  obtain ⟨back, rfl⟩ := hlonger
  rw [byteSize_append] at hsize'
  have hmid : r.slice (front ++ mid ++ back) = mid := by
    rw [ByteRange.slice, hsize, hsize', sliceBytes_eq]
  exact ⟨front, back, by rw [hmid], hsize.symm, by rw [hmid, hsize']⟩

end Slices

section Bindings

variable {dialect : Dialect} {d : Document} {r : ByteRange} {o : Nat} {m : Binding}

/-- Among bindings that are apart, a cursor touches at most one. -/
theorem find?_touching {bs : List Binding}
    (h : bs.Pairwise fun b b' => b.range.stop < b'.range.start) (hm : m ∈ bs)
    (ho : m.range.touches o = true) : bs.find? (fun b => b.range.touches o) = some m := by
  induction bs with
  | nil => cases hm
  | cons b bs ih =>
      obtain ⟨hb, h⟩ := List.pairwise_cons.mp h
      obtain rfl | hm := List.mem_cons.mp hm
      · exact List.find?_cons_of_pos ho
      · have hbehind := hb m hm
        rw [List.find?_cons_of_neg]
        · exact ih h hm
        · rw [touches_iff] at ho ⊢
          omega

theorem bindingsIn_pairwise (dialect : Dialect) (d : Document) (r : ByteRange) :
    (bindingsIn dialect d r).Pairwise fun b b' => b.range.stop < b'.range.start := by
  rw [bindingsIn, List.pairwise_map]
  exact (scan_pairwise dialect _).imp fun h => Nat.add_lt_add_left h _

theorem at?_eq (dialect : Dialect) (d : Document) (o : Nat) : at? dialect d o =
    (region? d o).bind fun r => (bindingsIn dialect d r).find? fun b => b.range.touches o := rfl

/-- A binding of a region is a name in its text; in a template something follows the name. -/
theorem exists_name (hm : m ∈ bindingsIn dialect d r) : ∃ front name back,
    r.slice d.text = front ++ name ++ back ∧ m = named (r.start + byteSize front) name ∧
      (dialect = .lwc → back ≠ []) := by
  obtain ⟨b, hb, rfl⟩ := List.mem_map.mp hm
  obtain ⟨front, rest, hslice, hbinds⟩ := mem_scan.mp hb
  obtain ⟨before, name, back, rfl, rfl, hback⟩ : ∃ before name back,
      rest = before ++ name ++ back ∧ b = named (byteSize front + 1 + byteSize before) name ∧
        (dialect = .lwc → back ≠ []) := by
    cases dialect with
    | lwc =>
        obtain ⟨ws, name, path, ws', rest, rfl, -, -, -, -, -, rfl⟩ := hbinds
        exact ⟨ws, name, path ++ ws' ++ '\x7d' :: rest, by simp, rfl, fun _ => by simp⟩
    | aura =>
        obtain ⟨scope, name, path, rest, rfl, -, -, -, -, -, rfl⟩ := hbinds
        exact ⟨scope, name, path ++ rest, by simp, rfl, fun h => nomatch h⟩
  refine ⟨front ++ '\x7b' :: before, name, back, by simp [hslice], ?_, hback⟩
  simp only [Binding.shift, ByteRange.shift, named, byteSize_append, byteSize_cons,
    show '\x7b'.utf8Size = 1 from rfl, Nat.add_assoc]

/-- A binding of a region is a name that is cut out of the text inside the region. -/
theorem exists_cut (hd : d.root.Formed d.text) (hr : Region d r)
    (hm : m ∈ bindingsIn dialect d r) : ∃ front name back, d.text = front ++ name ++ back ∧
      m = named (byteSize front) name ∧ r.start ≤ byteSize front ∧
      byteSize front + byteSize name ≤ r.stop ∧
      (dialect = .lwc → byteSize front + byteSize name < r.stop) := by
  obtain ⟨front, name, back, hslice, rfl, hback⟩ := exists_name hm
  obtain ⟨hstart, hstop, hle⟩ := hr.bounds hd
  obtain ⟨first, last, htext, hfirst, hsize⟩ := exists_slice hstart hstop hle
  rw [hslice] at htext hsize
  simp only [byteSize_append] at hsize
  refine ⟨first ++ front, name, back ++ last, by rw [htext]; simp, by rw [byteSize_append, hfirst],
    by rw [byteSize_append]; omega, by rw [byteSize_append]; omega, fun h => ?_⟩
  have := byteSize_pos (hback h)
  rw [byteSize_append]
  omega

/-- The binding of a name in a region: the property is the text of its range, which lies in the
region. -/
theorem inside_region (hd : d.root.Formed d.text) (hr : Region d r)
    (hm : m ∈ bindingsIn dialect d r) : m.property = d.slice m.range ∧ r.start ≤ m.range.start ∧
      m.range.stop ≤ r.stop ∧ (dialect = .lwc → m.range.stop < r.stop) := by
  obtain ⟨front, name, back, htext, rfl, hlo, hhi, hlt⟩ := exists_cut hd hr hm
  have hname := sliceBytes_eq front name back
  rw [← htext] at hname
  exact ⟨congrArg String.ofList hname.symm, hlo, hhi, hlt⟩

/-- The range of a binding is cut between characters. -/
theorem binding_boundaries (hd : d.root.Formed d.text) (hr : Region d r)
    (hm : m ∈ bindingsIn dialect d r) :
    m.range.start ∈ boundaries 0 d.text ∧ m.range.stop ∈ boundaries 0 d.text := by
  obtain ⟨front, name, back, htext, rfl, -⟩ := exists_cut hd hr hm
  refine ⟨mem_boundaries.mpr ⟨front, ⟨name ++ back, by rw [htext]; simp⟩, rfl⟩,
    mem_boundaries.mpr ⟨front ++ name, ⟨back, htext.symm⟩, ?_⟩⟩
  rw [byteSize_append]
  rfl

/-- Every binding of a region is found at each cursor that touches it, and a cursor that touches a
region but none of its bindings finds nothing. What is found touches the cursor, and its property
is the text of its range. Where the region ends and a tag begins, a binding of aura markup may be
missed, and a cursor in front of an element finds nothing at all. -/
theorem at?_exact (dialect : Dialect) (text : String) :
    (∀ r, Region (.read text) r → ∀ m ∈ bindingsIn dialect (.read text) r, ∀ o,
      m.range.touches o = true → at? dialect (.read text) o = some m ∨
        at? dialect (.read text) o = none ∧ dialect = .aura ∧ o = r.stop ∧
          TagAt (.read text) o) ∧
    (∀ r, Region (.read text) r → ∀ o, r.touches o = true →
      (∀ m ∈ bindingsIn dialect (.read text) r, m.range.touches o = false) →
        at? dialect (.read text) o = none) ∧
    (∀ o b, at? dialect (.read text) o = some b →
      b.range.touches o = true ∧ b.property = (Document.read text).slice b.range) ∧
    ∀ e t, (Document.read text).root.Within e → e.kind = .element → e.startTag? = some t →
      at? dialect (.read text) t.range.start = none := by
  generalize hread : Document.read text = d
  have hd : d.root.Formed d.text := hread ▸ readNode_formed text.toList
  refine ⟨fun r hr m hm o ho => ?_, fun r hr o ho hnone => ?_, fun o b hb => ?_,
    fun e t he hkind htag => ?_⟩
  · obtain ⟨-, hlo, hhi, htemplate⟩ := inside_region hd hr hm
    have hinside : r.touches o = true := by
      rw [touches_iff] at ho ⊢
      omega
    obtain hfound | ⟨hnone, hend, htag⟩ := region?_spec hd hr hinside
    · left
      rw [at?_eq, hfound]
      exact find?_touching (bindingsIn_pairwise dialect d r) hm ho
    · right
      refine ⟨by rw [at?_eq, hnone]; rfl, ?_, hend, htag⟩
      cases dialect with
      | aura => rfl
      | lwc =>
          have := htemplate rfl
          rw [touches_iff] at ho
          omega
  · obtain hfound | ⟨hnone, -⟩ := region?_spec hd hr ho
    · rw [at?_eq, hfound, Option.bind_some, List.find?_eq_none]
      intro m hm
      simp [hnone m hm]
    · rw [at?_eq, hnone]
      rfl
  · rw [at?_eq] at hb
    obtain ⟨r, hfound, hb⟩ := Option.bind_eq_some_iff.mp hb
    have hm := List.mem_of_find?_eq_some hb
    have htouches := List.find?_some hb
    exact ⟨htouches, (inside_region hd (region_of_region? hfound).1 hm).1⟩
  · rw [at?_eq, region?_start hd he hkind htag]
    rfl

/-- In front of an element the binding that ends there is missed. -/
example : at? .aura (.read "\x7b!v.name<p></p>") 7 = some ⟨"name", ⟨4, 8⟩⟩ ∧
    at? .aura (.read "\x7b!v.name<p></p>") 8 = none := by
  decide +kernel

end Bindings

end ComponentAtlas.Binding
