import ComponentAtlas.Proofs.Script.Lexemes
import ComponentAtlas.Script.Component

/-!
# Reading scripts

Matching a rule leads from one cursor of a text to another, and the nodes that it builds are cut out
of the text between its characters. This holds for the class of a component and for its members.
-/

namespace ComponentAtlas.Script

open ComponentAtlas.Text

/-- A node is cut out of a text between its characters, and so are its children. -/
inductive Node.Cut (text : List Char) : Node → Prop where
  | mk {k : NodeKind} {r : ByteRange} {cs : List Node} (hrange : r.Cut text)
      (hchildren : ∀ c ∈ cs, Node.Cut text c) : Node.Cut text (.mk k r cs)

/-- A match leads to a cursor of the text and builds nodes that are cut out of it. -/
def Outcome.Cut (text : List Char) (o : Outcome) : Prop :=
  ∀ next nodes, o.found = some (next, nodes) → On text next ∧ ∀ n ∈ nodes, n.Cut text

section Nodes

variable {text : List Char} {n base step : Node}

theorem Node.Cut.range (h : n.Cut text) : n.range.Cut text := by
  cases h with
  | mk hrange => exact hrange

theorem Node.Cut.children (h : n.Cut text) : ∀ c ∈ n.children, c.Cut text := by
  cases h with
  | mk _ hchildren => exact hchildren

theorem Node.Cut.extend (hbase : base.Cut text) (hstep : step.Cut text) :
    (base.extend step).Cut text :=
  .mk ⟨hbase.range.1, hstep.range.2⟩ (List.forall_mem_cons.mpr ⟨hbase, hstep.children⟩)

end Nodes

section Gaps

variable {text : List Char} {c next : Cursor}

end Gaps

section Outcomes

variable {text : List Char} {c next : Cursor} {o first : Outcome} {nodes : List Node}

theorem Outcome.Cut.after (h : o.Cut text) (r : Reach) : (o.after r).Cut text := h

/-- What a match adds nodes to is again cut out of the text. -/
theorem Outcome.Cut.map {f : List Node → List Node} {r : Reach} (h : o.Cut text)
    (hf : ∀ next nodes, o.found = some (next, nodes) → ∀ n ∈ f nodes, n.Cut text) :
    Outcome.Cut text ⟨o.found.map fun (next, nodes) => (next, f nodes), r⟩ := by
  intro next nodes hfound
  obtain ⟨⟨last, inner⟩, hinner, heq⟩ := Option.map_eq_some_iff.mp hfound
  obtain ⟨rfl, rfl⟩ := Prod.mk.inj heq
  exact ⟨(h _ _ hinner).1, hf _ _ hinner⟩

theorem Outcome.Cut.append {front : List Node} {r : Reach} (h : o.Cut text)
    (hfront : ∀ n ∈ front, n.Cut text) :
    Outcome.Cut text ⟨o.found.map fun (last, back) => (last, front ++ back), r⟩ :=
  h.map fun _ _ hfound => List.forall_mem_append.mpr ⟨hfront, (h _ _ hfound).2⟩

end Outcomes

section Rules

variable {rules : Symbol → Rule} {tolerant : Bool} {text : List Char} {fuel : Nat} {c : Cursor}
  {a b base step : Rule} {left : Node} {reach : Reach}

section Parts

variable (hrun : ∀ rule c, On text c → (Rule.run rules tolerant fuel rule c).Cut text)
include hrun

end Parts

end Rules

/-- A class is cut out of a text, and so are its members. -/
structure ClassNode.Cut (text : List Char) (c : ClassNode) : Prop where
  range : c.range.Cut text
  members : ∀ m ∈ c.members, m.range.Cut text

section Classes

variable {text : List Char} {n program : Node} {c : ClassNode} {previous : Option Node}
  {items : List (Option Node × Node)}

/-- A member has the range of its node. -/
theorem range_of_member? {front : List Node} {m : MemberNode}
    (h : n.member? text previous front = some m) : m.range = n.range := by
  rw [Node.member?, Option.bind_eq_bind] at h
  obtain ⟨kind, -, h⟩ := Option.bind_eq_some_iff.mp h
  obtain ⟨name, -, h⟩ := Option.bind_eq_some_iff.mp h
  rw [← Option.some.inj h]

/-- A member without what can stand in front of its node. -/
def MemberNode.bare (m : MemberNode) : MemberNode :=
  { m with decorators := [], doc := none }

end Classes

end ComponentAtlas.Script
