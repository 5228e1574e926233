import ComponentAtlas.Proofs.Markup.Reading
import ComponentAtlas.Proofs.Markup.Shapes

/-!
# Elements around an offset

Around an offset each node is listed in front of the node that it is a child of, up to the document.
The elements among them are those in whose range the offset is: the innermost one and its ancestors.
So a search from the innermost outwards ends at the innermost element that has what is sought.
-/

namespace ComponentAtlas.Markup

open ComponentAtlas.Text

namespace Node

section Climbing

variable {o : Nat}

mutual

/-- Around an offset each node is followed by its parent, up to the outermost one. -/
theorem chain_parents : ∀ n : Node,
    (chain o n).IsChain (fun c p => c ∈ p.children) ∧ (chain o n).getLast? = some n
  | .mk k r cs => by
      obtain ⟨hchain, hlast⟩ := chainOf_parents cs
      rw [chain]
      refine ⟨List.isChain_append.mpr ⟨hchain, .singleton _, fun c hc p hp => ?_⟩, ?_⟩
      · obtain rfl := Option.some.inj hp
        exact hlast c hc
      · exact List.getLast?_concat

theorem chainOf_parents : ∀ cs : List Node,
    (chainOf o cs).IsChain (fun c p => c ∈ p.children) ∧ ∀ c ∈ (chainOf o cs).getLast?, c ∈ cs
  | [] => ⟨.nil, fun _ h => nomatch h⟩
  | c :: rest => by
      rw [chainOf]
      split
      · obtain ⟨hchain, hlast⟩ := chain_parents c
        refine ⟨hchain, fun d hd => ?_⟩
        obtain rfl := Option.some.inj (hlast.symm.trans hd)
        exact List.mem_cons_self
      · obtain ⟨hchain, hlast⟩ := chainOf_parents rest
        exact ⟨hchain, fun d hd => List.mem_cons_of_mem c (hlast d hd)⟩

end

/-- Each node around an offset lies in those behind it. -/
theorem chain_nested (n : Node) : (chain o n).Pairwise fun c p => p.Within c := by
  have : IsTrans Node fun c p => p.Within c := ⟨fun _ _ _ h h' => h'.trans h⟩
  refine List.isChain_iff_pairwise.mp ((chain_parents n).1.imp fun c p hc => ?_)
  exact .child (.self p) hc

/-- Behind a node that is not the outermost one its parent is next. -/
theorem exists_parent {x root : Node} {rest : List Node} (hne : x ≠ root)
    (hchain : (x :: rest).IsChain fun c p => c ∈ p.children)
    (hlast : (x :: rest).getLast? = some root) : ∃ parent outer, rest = parent :: outer ∧
      x ∈ parent.children ∧ (parent :: outer).IsChain (fun c p => c ∈ p.children) ∧
      (parent :: outer).getLast? = some root := by
  cases rest with
  | nil => exact absurd (Option.some.inj hlast) hne
  | cons parent outer =>
      rw [List.getLast?_cons_cons] at hlast
      obtain ⟨hmem, hchain⟩ := List.isChain_cons_cons.mp hchain
      exact ⟨parent, outer, rfl, hmem, hchain, hlast⟩

theorem sizeOf_lt_of_child {n c : Node} (hc : c ∈ n.children) : sizeOf c < sizeOf n := by
  obtain ⟨k, r, cs⟩ := n
  have := List.sizeOf_lt_of_mem (show c ∈ cs from hc)
  simp only [mk.sizeOf_spec]
  omega

/-- A node is larger than those that lie in it. -/
theorem Within.eq_or_lt {a b : Node} (h : a.Within b) : b = a ∨ sizeOf b < sizeOf a := by
  induction h with
  | self => exact .inl rfl
  | child _ hc ih =>
      have hlt := sizeOf_lt_of_child hc
      right
      obtain rfl | h := ih
      · exact hlt
      · omega

theorem Within.antisymm {a b : Node} (h : a.Within b) (h' : b.Within a) : a = b := by
  obtain heq | hlt := h.eq_or_lt
  · exact heq.symm
  · obtain heq | hlt' := h'.eq_or_lt
    · exact heq
    · omega

end Climbing

end Node

section Elements

variable {text : List Char} {root e x y : Node} {o : Nat}

/-- A node in whose range an offset is stands around the offset. -/
theorem Node.Formed.mem_chain (h : root.Formed text) (hx : root.Within x)
    (hstart : x.range.start ≤ o) (hstop : o < x.range.stop) : x ∈ Node.chain o root := by
  cases hx with
  | self => exact Node.self_mem_chain root
  | child hn hc =>
      obtain ⟨outer, houter⟩ := chain_of_child h.laid hn hc hstart hstop
      rw [houter]
      exact List.mem_append_left _ (Node.self_mem_chain x)

/-- The range of a node spans those of the nodes that lie in it. -/
theorem Node.Formed.range_of_within (h : root.Formed text) (hx : root.Within x)
    (hkind : x.kind ≠ .document) (hy : x.Within y) :
    x.range.start ≤ y.range.start ∧ y.range.stop ≤ x.range.stop := by
  obtain rfl | ⟨c, hc, hcy⟩ := Node.within_iff.mp hy
  · exact ⟨Nat.le_refl _, Nat.le_refl _⟩
  · obtain ⟨hlo, hhi, -⟩ := (h.of_within hx hkind).2.of_within hc hcy
    exact ⟨hlo, hhi⟩

/-- An element is not empty, since its tag is not. -/
theorem Node.Formed.element_pos (h : root.Formed text) (hshaped : root.Shaped)
    (he : root.Within e) (hkind : e.kind = .element) : e.range.start < e.range.stop := by
  obtain ⟨t, ht, htag⟩ := (hshaped.of_within he).exists_tag hkind
  obtain ⟨-, hlaid⟩ := h.of_within he (by simp [hkind])
  obtain ⟨hlo, hhi, hsound, -⟩ := hlaid.of_mem ht
  have := (hsound.parts htag).1
  omega

/-- A node has one parent. -/
theorem Node.Formed.parent_unique {p q : Node} (h : root.Formed text) (hq : root.Within q)
    (hkind : q.kind ≠ .document) (hxp : x ∈ p.children) (hxq : x ∈ q.children)
    (hpos : x.range.start < x.range.stop) (hin : q.Within p) : p = q := by
  obtain rfl | ⟨c, hc, hcp⟩ := Node.within_iff.mp hin
  · rfl
  · obtain ⟨hsound, hlaid⟩ := h.of_within hq hkind
    have hckind : c.kind ≠ .document := fun hdocument => by
      have := hdocument ▸ hsound.holds c hc
      cases hk : q.kind <;> rw [hk] at this <;> cases this
    obtain ⟨hlo, hhi⟩ := h.range_of_within (.child hq hc) hckind (.child hcp hxp)
    -- The child of the outer node that holds the inner one is not beside the child of both.
    obtain rfl | hapart | hapart := hlaid.apart hxq hc
    · have := sizeOf_lt_of_child hxp
      obtain rfl | hlt := hcp.eq_or_lt
      · omega
      · omega
    · omega
    · omega

end Elements

namespace Document

/-- A document whose tree is laid out and shaped. -/
structure Formed (d : Document) : Prop where
  formed : d.root.Formed d.text
  shaped : d.root.Shaped

theorem formed_read (text : String) : (Document.read text).Formed :=
  ⟨readNode_formed text.toList, readNode_shaped text.toList⟩

/-- The innermost element around an offset, or one of its ancestors. -/
def Encloses (d : Document) (o : Nat) (e : Node) : Prop :=
  ∃ inner, d.elementAt? o = some inner ∧ d.root.Within e ∧ e.kind = .element ∧ e.Within inner

/-- The innermost one of the elements around an offset that have a property: those that have it
too lie around it. -/
structure Innermost (d : Document) (o : Nat) (p : Node → Prop) (e : Node) : Prop where
  encloses : d.Encloses o e
  has : p e
  inside : ∀ e', d.Encloses o e' → p e' → e'.Within e

section Enclosing

variable {d : Document} {e e' : Node} {o : Nat} {p : Node → Prop}

theorem Innermost.unique (h : d.Innermost o p e) (h' : d.Innermost o p e') : e = e' :=
  (h'.inside e h.encloses h.has).antisymm (h.inside e' h'.encloses h'.has)

theorem mem_elementsAround (hd : d.Formed) : e ∈ d.elementsAround o ↔
    d.root.Within e ∧ e.kind = .element ∧ e.range.start ≤ o ∧ o < e.range.stop := by
  rw [elementsAround, List.mem_filter, Node.is, beq_iff_eq]
  constructor
  · rintro ⟨hmem, hkind⟩
    obtain ⟨hwithin, rfl | hholds⟩ := Node.mem_chain d.root hmem
    · rw [hd.formed.kind] at hkind
      cases hkind
    · have hpos := hd.formed.element_pos hd.shaped hwithin hkind
      have hle := le_of_mem_boundaries (hd.formed.of_within hwithin (by simp [hkind])).1.stop
      simp only [Node.holds, Bool.and_eq_true, Bool.or_eq_true, decide_eq_true_eq,
        beq_iff_eq] at hholds
      exact ⟨hwithin, hkind, by omega, by omega⟩
  · rintro ⟨hwithin, hkind, hstart, hstop⟩
    have hle := le_of_mem_boundaries (hd.formed.of_within hwithin (by simp [hkind])).1.stop
    refine ⟨?_, hkind⟩
    rw [around, Nat.min_eq_left (by omega)]
    exact hd.formed.mem_chain hwithin hstart hstop

/-- Around an offset the node that is there comes first, each node is followed by its parent, and
the document comes last. -/
theorem around_parents (d : Document) (o : Nat) : ∃ rest, d.around o = d.nodeAt o :: rest ∧
    (d.nodeAt o :: rest).IsChain (fun c p => c ∈ p.children) ∧
    (d.nodeAt o :: rest).getLast? = some d.root := by
  obtain ⟨hchain, hlast⟩ := Node.chain_parents (o := min o (byteSize d.text)) d.root
  rw [← around] at hchain hlast
  cases haround : d.around o with
  | nil => exact absurd haround (Node.chain_ne_nil _ _)
  | cons n rest =>
      have hnode : d.nodeAt o = n := by rw [nodeAt, haround, List.headD_cons]
      rw [haround] at hchain hlast
      exact ⟨rest, by rw [hnode], by rw [hnode]; exact hchain, by rw [hnode]; exact hlast⟩

/-- The elements around an offset are nested. -/
theorem elementsAround_nested (d : Document) (o : Nat) :
    (d.elementsAround o).Pairwise fun c p => p.Within c :=
  (Node.chain_nested d.root).filter _

/-- The elements around an offset are the innermost one and its ancestors. -/
theorem mem_elementsAround_iff_encloses (hd : d.Formed) :
    e ∈ d.elementsAround o ↔ d.Encloses o e := by
  constructor
  · intro he
    obtain ⟨hwithin, hkind, -⟩ := (mem_elementsAround hd).mp he
    obtain ⟨inner, outer, hlist⟩ := List.exists_cons_of_ne_nil (List.ne_nil_of_mem he)
    have hnested := List.pairwise_cons.mp (hlist ▸ elementsAround_nested d o)
    refine ⟨inner, by rw [elementAt?, hlist, List.head?_cons], hwithin, hkind, ?_⟩
    obtain rfl | hmem := List.mem_cons.mp (hlist ▸ he)
    · exact .self e
    · exact hnested.1 e hmem
  · rintro ⟨inner, hinner, hwithin, hkind, hin⟩
    obtain ⟨-, -, hstart, hstop⟩ := (mem_elementsAround hd).mp (List.mem_of_head? hinner)
    obtain ⟨hlo, hhi⟩ := hd.formed.range_of_within hwithin (by simp [hkind]) hin
    exact (mem_elementsAround hd).mpr ⟨hwithin, hkind, by omega, by omega⟩

theorem encloses_iff (hd : d.Formed) : d.Encloses o e ↔
    d.root.Within e ∧ e.kind = .element ∧ e.range.start ≤ o ∧ o < e.range.stop := by
  rw [← mem_elementsAround_iff_encloses hd, mem_elementsAround hd]

variable {α : Type} {f : Node → Option α} {r : α}

/-- A search from the inside out ends at the innermost element in which there is something. -/
theorem findSome?_elementsAround (hd : d.Formed) : (d.elementsAround o).findSome? f = some r ↔
    ∃ e, d.Innermost o (fun e => (f e).isSome) e ∧ f e = some r := by
  have hfound : ∀ {r : α}, (d.elementsAround o).findSome? f = some r →
      ∃ e, d.Innermost o (fun e => (f e).isSome) e ∧ f e = some r := by
    intro r h
    obtain ⟨inner, e, outer, hlist, he, hnone⟩ := List.findSome?_eq_some_iff.mp h
    have hmem : e ∈ d.elementsAround o := by simp [hlist]
    have hnested := List.pairwise_append.mp (hlist ▸ elementsAround_nested d o)
    refine ⟨e, ⟨(mem_elementsAround_iff_encloses hd).mp hmem, by simp [he], ?_⟩, he⟩
    intro e' hencloses hsome
    have hmem' := hlist ▸ (mem_elementsAround_iff_encloses hd).mpr hencloses
    obtain hin | hout := List.mem_append.mp hmem'
    · simp [hnone e' hin] at hsome
    · obtain rfl | hout := List.mem_cons.mp hout
      · exact .self e'
      · exact (List.pairwise_cons.mp hnested.2.1).1 e' hout
  refine ⟨hfound, ?_⟩
  rintro ⟨e, hinner, he⟩
  obtain ⟨r', hr'⟩ := Option.isSome_iff_exists.mp (List.findSome?_isSome_iff.mpr
    ⟨e, (mem_elementsAround_iff_encloses hd).mpr hinner.encloses, hinner.has⟩)
  obtain ⟨e', hinner', he'⟩ := hfound hr'
  rw [hr', ← he', ← he, hinner.unique hinner']

theorem findSome?_elementsAround_eq_none (hd : d.Formed) :
    (d.elementsAround o).findSome? f = none ↔ ∀ e, d.Encloses o e → f e = none := by
  simp only [List.findSome?_eq_none_iff, mem_elementsAround_iff_encloses hd]

/-- The innermost element around an offset is the innermost one in whose range the offset is. -/
theorem elementAt?_eq_some (hd : d.Formed) :
    d.elementAt? o = some e ↔ d.Innermost o (fun _ => True) e := by
  have hfind : d.elementAt? o = (d.elementsAround o).findSome? some := by
    rw [elementAt?]
    cases d.elementsAround o <;> rfl
  rw [hfind, findSome?_elementsAround hd]
  constructor
  · rintro ⟨e', h, heq⟩
    obtain rfl := Option.some.inj heq
    exact ⟨h.encloses, trivial, fun x hx _ => h.inside x hx rfl⟩
  · exact fun h => ⟨e, ⟨h.encloses, rfl, fun x hx _ => h.inside x hx trivial⟩, rfl⟩

end Enclosing

end Document

end ComponentAtlas.Markup
