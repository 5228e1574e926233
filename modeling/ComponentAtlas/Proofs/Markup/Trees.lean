import ComponentAtlas.Markup.Document
import ComponentAtlas.Proofs.Text.Positions

/-!
# Trees of markup

In a tree that is laid out the children of a node lie in its range one after the other, each of a
kind that the node may hold. Only a last child may be empty. Two nodes of such a tree are nested or
apart, and the nodes around an offset are those that hold it.
-/

namespace ComponentAtlas.Markup

open ComponentAtlas.Text

namespace Kind

/-- The kinds of tags that begin an element. -/
def isTag : Kind → Bool
  | .startTag | .selfClosingTag => true
  | _ => false

/-- The kinds that stand in a document or in an element between its tags. -/
def isContent : Kind → Bool
  | .element | .scriptElement | .styleElement | .strayEndTag | .text | .entity | .doctype
  | .comment | .error => true
  | _ => false

/-- The kinds that stand in a tag. -/
def isPart : Kind → Bool
  | .mark _ | .tagName | .attribute | .comment | .error => true
  | _ => false

/-- The kinds of nodes anywhere inside a tag. -/
def isInner (k : Kind) : Bool :=
  k.isPart || k == .attributeName || k == .attributeValue || k == .quotedValue

/-- Whether a node may have a child of a kind. -/
def mayHold : Kind → Kind → Bool
  | .document, k => k.isContent
  | .element, k => k.isContent || k.isTag || k == .endTag
  | .scriptElement, k | .styleElement, k => k == .startTag || k == .rawText || k == .endTag
  | .startTag, k | .selfClosingTag, k | .error, k => k.isPart
  | .endTag, k | .strayEndTag, k | .doctype, k => k.isPart || k == .strayTagName
  | .attribute, k | .quotedValue, k => k.isInner
  | _, _ => false

/-- The kinds of nodes of which nothing is asked beyond what they hold. -/
def isPlain (k : Kind) : Bool :=
  !k.isTag && k != .text && k != .attribute

theorem isInner_of_mayHold {k l : Kind} (hk : k.isTag = true ∨ k.isInner = true)
    (h : k.mayHold l = true) : l.isInner = true := by
  cases k <;> simp_all [mayHold, isInner, isPart, isTag]

theorem eq_of_mayHold_text {k : Kind} (h : k.mayHold .text = true) :
    k = .element ∨ k = .document := by
  cases k <;> simp_all [mayHold, isInner, isPart, isTag, isContent]

end Kind

/-- The second node lies in the tree of the first one. -/
inductive Node.Within : Node → Node → Prop where
  | self (n : Node) : Within n n
  | child {root n c : Node} (h : Within root n) (hc : c ∈ n.children) : Within root c

namespace Node

theorem Within.trans {a b c : Node} (h : a.Within b) (h' : b.Within c) : a.Within c := by
  induction h' with
  | self => exact h
  | child _ hc ih => exact .child ih hc

theorem within_iff {root x : Node} :
    root.Within x ↔ x = root ∨ ∃ c ∈ root.children, c.Within x := by
  constructor
  · intro h
    induction h with
    | self => exact .inl rfl
    | @child n c _ hc ih =>
        obtain rfl | ⟨d, hd, hn⟩ := ih
        · exact .inr ⟨c, hc, .self c⟩
        · exact .inr ⟨d, hd, .child hn hc⟩
  · rintro (rfl | ⟨c, hc, h⟩)
    · exact .self x
    · exact Within.trans (.child (.self root) hc) h

theorem mem_elements {n e : Node} : e ∈ n.elements ↔ e ∈ n.children ∧ e.kind = .element := by
  rw [elements, List.mem_filter, is, beq_iff_eq]

end Node

/-- A character that begins a text: no blank and none of the marks at which a text ends. -/
def startsText (c : Char) : Bool :=
  !isSourceBlank c && !(['<', '>', '&'].contains c)

/-- No text begins at an offset. -/
def NoText (text : List Char) (offset : Nat) : Prop :=
  ∀ front c back, text = front ++ c :: back → byteSize front = offset → startsText c = false

/-- The character at an offset begins a text. -/
def TextAt (text : List Char) (offset : Nat) : Prop :=
  ∃ front c back, text = front ++ c :: back ∧ byteSize front = offset ∧ startsText c = true

/-- What a node of a document is like: it is cut between characters and holds what it may hold.
The value of an attribute stands behind its name. A text ends where no text begins, and so does a
tag, unless its last mark stands behind its attributes. Neither is empty. -/
structure Node.Sound (text : List Char) (n : Node) : Prop where
  start : n.range.start ∈ boundaries 0 text
  stop : n.range.stop ∈ boundaries 0 text
  holds : ∀ c ∈ n.children, n.kind.mayHold c.kind = true
  run : n.kind = .text → n.range.start < n.range.stop ∧ TextAt text n.range.start ∧
    NoText text n.range.stop
  value : n.kind = .attribute → ∀ r, n.valueRange? = some r → r.start ∈ boundaries 0 text ∧
    r.stop ∈ boundaries 0 text ∧ n.range.start < r.start ∧ r.start ≤ r.stop ∧
    r.stop ≤ n.range.stop
  parts : n.kind.isTag = true → n.range.start < n.range.stop ∧
    (∀ a ∈ n.children, a.kind = .attribute → n.range.start < a.range.start) ∧
    ((∀ a ∈ n.children, a.kind = .attribute → a.range.stop < n.range.stop) ∨
      NoText text n.range.stop)

/-- Sound nodes that lie one after the other, with their children likewise inside them. -/
inductive Laid (text : List Char) : Nat → List Node → Nat → Prop where
  | nil {lo hi : Nat} (h : lo ≤ hi) : Laid text lo [] hi
  | empty {lo hi : Nat} {n : Node} (hlo : lo ≤ n.range.start)
      (hempty : n.range.start = n.range.stop) (hhi : n.range.stop ≤ hi) (hn : n.Sound text)
      (hleaf : n.children = []) : Laid text lo [n] hi
  | cons {lo hi : Nat} {n : Node} {rest : List Node} (hlo : lo ≤ n.range.start)
      (hlt : n.range.start < n.range.stop) (hn : n.Sound text)
      (hinner : Laid text n.range.start n.children n.range.stop)
      (hrest : Laid text n.range.stop rest hi) : Laid text lo (n :: rest) hi

namespace Laid

variable {text : List Char} {lo mid hi : Nat} {nodes more : List Node} {n c x y : Node}

theorem le (h : Laid text lo nodes hi) : lo ≤ hi := by
  induction h with
  | nil h => exact h
  | empty hlo hempty hhi => omega
  | cons hlo hlt _ _ _ _ ih => omega

theorem mono {lo' hi' : Nat} (h : Laid text lo nodes hi) (hlo : lo' ≤ lo) (hhi : hi ≤ hi') :
    Laid text lo' nodes hi' := by
  induction h generalizing lo' with
  | nil h => exact .nil (by omega)
  | empty hlo' hempty hhi' hn hleaf => exact .empty (by omega) hempty (by omega) hn hleaf
  | cons hlo' hlt hn hinner _ _ ih => exact .cons (by omega) hlt hn hinner (ih (Nat.le_refl _) hhi)

/-- Nodes are laid out up to the end of the last of them. -/
theorem to_last (h : Laid text lo nodes hi) (hn : n ∈ nodes.getLast?) :
    Laid text lo nodes n.range.stop ∧ n.range.stop ≤ hi := by
  induction h with
  | nil => cases hn
  | empty hlo hempty hhi hsound hleaf =>
      obtain rfl := Option.some.inj hn
      exact ⟨.empty hlo hempty (Nat.le_refl _) hsound hleaf, hhi⟩
  | @cons lo hi m rest hlo hlt hsound hinner hrest _ ih =>
      cases rest with
      | nil =>
          obtain rfl := Option.some.inj hn
          exact ⟨.cons hlo hlt hsound hinner (.nil (Nat.le_refl _)), hrest.le⟩
      | cons m' rest =>
          rw [List.getLast?_cons_cons] at hn
          obtain ⟨hlaid, hle⟩ := ih hn
          exact ⟨.cons hlo hlt hsound hinner hlaid, hle⟩

theorem append (h : Laid text lo nodes mid)
    (hsolid : ∀ n ∈ nodes, n.range.start < n.range.stop) (h' : Laid text mid more hi) :
    Laid text lo (nodes ++ more) hi := by
  induction h with
  | nil h => exact h'.mono h (Nat.le_refl _)
  | empty _ hempty => exact absurd (hsolid _ (List.mem_singleton_self _)) (by omega)
  | cons hlo hlt hn hinner _ _ ih =>
      exact .cons hlo hlt hn hinner (ih (fun n hn => hsolid n (List.mem_cons_of_mem _ hn)) h')

/-- A node is sound, and its children are laid out inside it. -/
theorem of_mem (h : Laid text lo nodes hi) (hc : c ∈ nodes) : lo ≤ c.range.start ∧
    c.range.stop ≤ hi ∧ c.Sound text ∧ Laid text c.range.start c.children c.range.stop := by
  induction h with
  | nil => cases hc
  | empty hlo hempty hhi hn hleaf =>
      obtain rfl := List.mem_singleton.mp hc
      exact ⟨hlo, hhi, hn, hleaf ▸ .nil (Nat.le_of_eq hempty)⟩
  | cons hlo hlt hn hinner hrest _ ih =>
      obtain rfl | hc := List.mem_cons.mp hc
      · exact ⟨hlo, hrest.le, hn, hinner⟩
      · obtain ⟨hstart, hrest⟩ := ih hc
        exact ⟨by omega, hrest⟩

theorem of_within (h : Laid text lo nodes hi) (hc : c ∈ nodes) (hx : c.Within x) :
    lo ≤ x.range.start ∧ x.range.stop ≤ hi ∧ x.Sound text ∧
      Laid text x.range.start x.children x.range.stop := by
  induction hx with
  | self => exact h.of_mem hc
  | child _ hd ih =>
      obtain ⟨hlo, hhi, -, hinner⟩ := ih
      obtain ⟨hlo', hhi', hsound⟩ := hinner.of_mem hd
      exact ⟨by omega, by omega, hsound⟩

/-- Two nodes are nested or apart. -/
theorem laminar (h : Laid text lo nodes hi) {c d : Node} (hc : c ∈ nodes) (hd : d ∈ nodes)
    (hx : c.Within x) (hy : d.Within y) : x.Within y ∨ y.Within x ∨
      x.range.stop ≤ y.range.start ∨ y.range.stop ≤ x.range.start := by
  induction h generalizing c d with
  | nil => cases hc
  | @empty lo hi n hlo hempty hhi hn hleaf =>
      obtain rfl := List.mem_singleton.mp hc
      obtain rfl := List.mem_singleton.mp hd
      obtain rfl | ⟨e, he, -⟩ := Node.within_iff.mp hx
      · exact .inl hy
      · rw [hleaf] at he
        cases he
  | @cons lo hi n rest hlo hlt hn hinner hrest ihinner ihrest =>
      have hfirst : Laid text lo [n] n.range.stop :=
        .cons hlo hlt hn hinner (.nil (Nat.le_refl _))
      have hself := List.mem_singleton_self n
      obtain rfl | hc' := List.mem_cons.mp hc
      · obtain rfl | hd' := List.mem_cons.mp hd
        · obtain rfl | ⟨e, he, hex⟩ := Node.within_iff.mp hx
          · exact .inl hy
          · obtain rfl | ⟨f, hf, hfy⟩ := Node.within_iff.mp hy
            · exact .inr (.inl hx)
            · exact ihinner he hf hex hfy
        · have := (hfirst.of_within hself hx).2.1
          have := (hrest.of_within hd' hy).1
          exact .inr (.inr (.inl (by omega)))
      · obtain rfl | hd' := List.mem_cons.mp hd
        · have := (hfirst.of_within hself hy).2.1
          have := (hrest.of_within hc' hx).1
          exact .inr (.inr (.inr (by omega)))
        · exact ihrest hc' hd' hx hy

/-- Two nodes of a list are the same or apart. -/
theorem apart (h : Laid text lo nodes hi) (hx : x ∈ nodes) (hy : y ∈ nodes) :
    x = y ∨ x.range.stop ≤ y.range.start ∨ y.range.stop ≤ x.range.start := by
  induction h with
  | nil => cases hx
  | empty =>
      rw [List.mem_singleton] at hx hy
      exact .inl (hx.trans hy.symm)
  | cons _ _ _ _ hrest _ ih =>
      obtain rfl | hx' := List.mem_cons.mp hx
      · obtain rfl | hy' := List.mem_cons.mp hy
        · exact .inl rfl
        · exact .inr (.inl (hrest.of_mem hy').1)
      · obtain rfl | hy' := List.mem_cons.mp hy
        · exact .inr (.inr (hrest.of_mem hx').1)
        · exact ih hx' hy'

/-- An offset in a node selects it among its siblings. -/
theorem chainOf_eq {o : Nat} (h : Laid text lo nodes hi) (hc : c ∈ nodes)
    (hstart : c.range.start ≤ o) (hstop : o < c.range.stop) :
    Node.chainOf o nodes = Node.chain o c := by
  induction h with
  | nil => cases hc
  | empty hlo hempty hhi hn hleaf =>
      obtain rfl := List.mem_singleton.mp hc
      omega
  | @cons lo hi n rest hlo hlt hn hinner hrest _ ih =>
      obtain rfl | hc := List.mem_cons.mp hc
      · rw [Node.chainOf, if_pos (by simp [Node.holds, hstart, hstop])]
      · have hbehind := (hrest.of_mem hc).1
        have hholds : n.holds o = false := by
          have : ¬ o < n.range.stop := by omega
          simp [Node.holds, this, Nat.ne_of_lt hlt]
        rw [Node.chainOf, hholds]
        exact ih hc

end Laid

/-- A document whose content is laid out in its text. -/
structure Node.Formed (text : List Char) (root : Node) : Prop where
  kind : root.kind = .document
  laid : Laid text root.range.start root.children root.range.stop
  content : ∀ c ∈ root.children, c.kind.isContent = true

namespace Node.Formed

variable {text : List Char} {root n x y : Node}

theorem of_within (h : root.Formed text) (hx : root.Within x) (hkind : x.kind ≠ .document) :
    x.Sound text ∧ Laid text x.range.start x.children x.range.stop := by
  obtain rfl | ⟨c, hc, hcx⟩ := Node.within_iff.mp hx
  · exact absurd h.kind hkind
  · exact (h.laid.of_within hc hcx).2.2

theorem mayHold (h : root.Formed text) (hn : root.Within n) (hx : x ∈ n.children) :
    n.kind.mayHold x.kind = true := by
  obtain rfl | ⟨c, hc, hcn⟩ := Node.within_iff.mp hn
  · rw [h.kind]
    exact h.content x hx
  · exact (h.laid.of_within hc hcn).2.2.1.holds x hx

/-- The nodes inside a tag are of the inner kinds. -/
theorem isInner (h : root.Formed text) (hx : root.Within x) (htag : x.kind.isTag = true)
    (hy : x.Within y) : y = x ∨ y.kind.isInner = true := by
  induction hy with
  | self => exact .inl rfl
  | @child m y hm hy ih =>
      have hkind : m.kind.isTag = true ∨ m.kind.isInner = true := by
        obtain rfl | hinner := ih
        · exact .inl htag
        · exact .inr hinner
      exact .inr (Kind.isInner_of_mayHold hkind (h.mayHold (hx.trans hm) hy))

theorem children_of_text (h : root.Formed text) (hx : root.Within x) (hkind : x.kind = .text) :
    x.children = [] := by
  refine List.eq_nil_iff_forall_not_mem.mpr fun c hc => ?_
  have := h.mayHold hx hc
  rw [hkind] at this
  cases this

theorem eq_of_text (h : root.Formed text) (hx : root.Within x) (hkind : x.kind = .text)
    (hy : x.Within y) : y = x := by
  obtain rfl | ⟨c, hc, -⟩ := Node.within_iff.mp hy
  · rfl
  · rw [h.children_of_text hx hkind] at hc
    cases hc

/-- Two nodes that are tags or texts are the same or apart. -/
theorem apart (h : root.Formed text) (hx : root.Within x) (hy : root.Within y)
    (hkx : x.kind.isTag = true ∨ x.kind = .text) (hky : y.kind.isTag = true ∨ y.kind = .text) :
    x = y ∨ x.range.stop ≤ y.range.start ∨ y.range.stop ≤ x.range.start := by
  have hsame : ∀ {x y : Node}, root.Within x → (x.kind.isTag = true ∨ x.kind = .text) →
      (y.kind.isTag = true ∨ y.kind = .text) → x.Within y → y = x := by
    rintro x y hx (hkx | hkx) hky hwithin
    · obtain heq | hinner := h.isInner hx hkx hwithin
      · exact heq
      · obtain hky | hky := hky
        · cases hk : y.kind <;> simp_all [Kind.isInner, Kind.isPart, Kind.isTag]
        · rw [hky] at hinner
          cases hinner
    · exact h.eq_of_text hx hkx hwithin
  obtain rfl | ⟨c, hc, hcx⟩ := Node.within_iff.mp hx
  · rw [h.kind] at hkx
    obtain hkx | hkx := hkx <;> cases hkx
  · obtain rfl | ⟨d, hd, hdy⟩ := Node.within_iff.mp hy
    · rw [h.kind] at hky
      obtain hky | hky := hky <;> cases hky
    · obtain hwithin | hwithin | hapart := h.laid.laminar hc hd hcx hdy
      · exact .inl (hsame hx hkx hky hwithin).symm
      · exact .inl (hsame hy hky hkx hwithin)
      · exact .inr hapart

end Node.Formed

section Chain

variable {o : Nat}

mutual

theorem Node.mem_chain {x : Node} : ∀ n : Node, x ∈ Node.chain o n →
    n.Within x ∧ (x = n ∨ x.holds o = true)
  | .mk k r cs, h => by
      rw [Node.chain, List.mem_append, List.mem_singleton] at h
      obtain h | rfl := h
      · obtain ⟨c, hc, hwithin, hholds⟩ := Node.mem_chainOf cs h
        exact ⟨Node.within_iff.mpr (.inr ⟨c, hc, hwithin⟩), .inr hholds⟩
      · exact ⟨.self _, .inl rfl⟩

theorem Node.mem_chainOf {x : Node} : ∀ nodes : List Node, x ∈ Node.chainOf o nodes →
    ∃ c ∈ nodes, c.Within x ∧ x.holds o = true
  | [], h => by simp [Node.chainOf] at h
  | c :: rest, h => by
      rw [Node.chainOf] at h
      split at h
      · next hholds =>
        obtain ⟨hwithin, hx⟩ := Node.mem_chain c h
        exact ⟨c, List.mem_cons_self .., hwithin, hx.elim (fun h => h ▸ hholds) id⟩
      · obtain ⟨d, hd, hx⟩ := Node.mem_chainOf rest h
        exact ⟨d, List.mem_cons_of_mem c hd, hx⟩

end

theorem Node.self_mem_chain (n : Node) : n ∈ Node.chain o n := by
  cases n
  exact List.mem_append_right _ (List.mem_singleton_self _)

theorem Node.chain_of_leaf {n : Node} (h : n.children = []) : Node.chain o n = [n] := by
  cases n
  obtain rfl := h
  rfl

/-- Around an offset in a child stand the nodes around it in the child, and the node itself. -/
theorem chain_of_child {text : List Char} {root n c : Node}
    (h : Laid text root.range.start root.children root.range.stop) (hn : root.Within n)
    (hc : c ∈ n.children) (hstart : c.range.start ≤ o) (hstop : o < c.range.stop) :
    ∃ outer, Node.chain o root = Node.chain o c ++ n :: outer := by
  have hhere : ∀ {n c : Node}, Laid text n.range.start n.children n.range.stop → c ∈ n.children →
      c.range.start ≤ o → o < c.range.stop → Node.chain o n = Node.chain o c ++ [n] := by
    rintro ⟨k, r, cs⟩ c hlaid hc hstart hstop
    rw [Node.chain, show Node.chainOf o cs = _ from hlaid.chainOf_eq hc hstart hstop]
  induction hn generalizing c with
  | self => exact ⟨[], hhere h hc hstart hstop⟩
  | @child m d hm hd ih =>
      have hlaid : Laid text d.range.start d.children d.range.stop := by
        obtain rfl | ⟨e, he, hem⟩ := Node.within_iff.mp hm
        · exact (h.of_mem hd).2.2.2
        · exact (h.of_within he (.child hem hd)).2.2.2
      obtain ⟨hlo, hhi, -⟩ := hlaid.of_mem hc
      obtain ⟨outer, houter⟩ := ih hd (by omega) (by omega)
      exact ⟨m :: outer, by rw [houter, hhere hlaid hc hstart hstop]; simp⟩

end Chain

end ComponentAtlas.Markup
