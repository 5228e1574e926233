import ComponentAtlas.Text.Position

/-!
# Nodes of markup

A markup document is read into a tree. Every node has a kind, a range of bytes and children; the
children of a node lie in its range one after the other, with only blanks between them. Marks are
the fixed pieces of tags, such as angle brackets.
-/

namespace ComponentAtlas.Markup

open ComponentAtlas.Text

/-- The kinds of node. -/
inductive Kind where
  | document
  | element
  | scriptElement
  | styleElement
  | startTag
  | endTag
  | selfClosingTag
  | strayEndTag
  | tagName
  | strayTagName
  | attribute
  | attributeName
  | attributeValue
  | quotedValue
  | text
  | rawText
  | entity
  | doctype
  | comment
  | error
  | mark (sign : String)
  deriving DecidableEq, Repr, Inhabited

/-- The name of a kind; a mark is called by its text. -/
def Kind.name : Kind → String
  | .document => "document"
  | .element => "element"
  | .scriptElement => "script_element"
  | .styleElement => "style_element"
  | .startTag => "start_tag"
  | .endTag => "end_tag"
  | .selfClosingTag => "self_closing_tag"
  | .strayEndTag => "erroneous_end_tag"
  | .tagName => "tag_name"
  | .strayTagName => "erroneous_end_tag_name"
  | .attribute => "attribute"
  | .attributeName => "attribute_name"
  | .attributeValue => "attribute_value"
  | .quotedValue => "quoted_attribute_value"
  | .text => "text"
  | .rawText => "raw_text"
  | .entity => "entity"
  | .doctype => "doctype"
  | .comment => "comment"
  | .error => "ERROR"
  | .mark s => s

/-- A node with its children in order. -/
inductive Node where
  | mk (kind : Kind) (range : ByteRange) (children : List Node)
  deriving Repr, Inhabited

namespace Node

/-- The kind of a node. -/
def kind : Node → Kind
  | mk k _ _ => k

/-- The range of a node. -/
def range : Node → ByteRange
  | mk _ r _ => r

/-- The children of a node. -/
def children : Node → List Node
  | mk _ _ cs => cs

/-- A node without children. -/
def leaf (kind : Kind) (range : ByteRange) : Node := mk kind range []

/-- Whether a node is of a kind. -/
def is (n : Node) (k : Kind) : Bool := n.kind == k

/-- The first child of a kind. -/
def child? (n : Node) (k : Kind) : Option Node :=
  n.children.find? fun c => c.is k

/-- Whether a node holds the place of an offset: the offset lies in front of its last byte, or the
node is empty and stands right there. -/
def holds (n : Node) (offset : Nat) : Bool :=
  n.range.start ≤ offset &&
    (offset < n.range.stop || (n.range.start == n.range.stop && offset == n.range.stop))

mutual

/-- The nodes that hold an offset, from the innermost outwards to the given node. -/
def chain (offset : Nat) : Node → List Node
  | mk k r cs => chainOf offset cs ++ [mk k r cs]

/-- The nodes that hold an offset below the first of some nodes that holds it. -/
def chainOf (offset : Nat) : List Node → List Node
  | [] => []
  | c :: rest => if c.holds offset then chain offset c else chainOf offset rest

end

theorem chain_ne_nil (offset : Nat) (n : Node) : chain offset n ≠ [] := by
  cases n with
  | mk k r cs => simp [chain]

end Node

end ComponentAtlas.Markup
