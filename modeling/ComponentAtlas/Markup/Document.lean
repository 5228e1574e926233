import ComponentAtlas.Markup.Reader

/-!
# Markup documents

A document is a text with its tree. It answers what is at an offset, which element is around it,
and which attributes an element has.
-/

namespace ComponentAtlas.Markup

open ComponentAtlas.Text

/-- An attribute on a start tag. The value and its range are without quotes. -/
structure TagAttribute where
  name : String
  value : Option String
  nameRange : ByteRange
  valueRange : Option ByteRange
  deriving DecidableEq, Repr

/-- Whether the value of an attribute touches an offset. -/
def TagAttribute.valueTouches (a : TagAttribute) (offset : Nat) : Bool :=
  a.valueRange.any fun r => r.touches offset

namespace Node

/-- The start tag of an element, also when it closes itself. -/
def startTag? (n : Node) : Option Node :=
  n.children.find? fun c => c.is .startTag || c.is .selfClosingTag

/-- The children that are elements. -/
def elements (n : Node) : List Node :=
  n.children.filter fun c => c.is .element

/-- The range of the value of an attribute; empty quotes have an empty range between them. -/
def valueRange? (n : Node) : Option ByteRange :=
  n.children.foldl (fun found c =>
    if c.is .attributeValue then some c.range
    else if c.is .quotedValue then
      some (match c.child? .attributeValue with
        | some v => v.range
        | none =>
            let start := min (c.range.start + 1) c.range.stop
            ⟨start, start⟩)
    else found) none

end Node

/-- A text and its tree. -/
structure Document where
  text : List Char
  root : Node

namespace Document

/-- Reads a text. -/
def read (text : String) : Document :=
  ⟨text.toList, readNode text.toList⟩

/-- The text of a range. -/
def slice (d : Document) (r : ByteRange) : String :=
  String.ofList (r.slice d.text)

/-- The nodes around an offset, from the innermost outwards. -/
def around (d : Document) (offset : Nat) : List Node :=
  d.root.chain (min offset (byteSize d.text))

/-- The innermost node at an offset. -/
def nodeAt (d : Document) (offset : Nat) : Node :=
  (d.around offset).headD d.root

/-- The elements around an offset, from the innermost outwards. -/
def elementsAround (d : Document) (offset : Nat) : List Node :=
  (d.around offset).filter fun n => n.is .element

/-- The innermost element around an offset. -/
def elementAt? (d : Document) (offset : Nat) : Option Node :=
  (d.elementsAround offset).head?

/-- The first element outside all elements. -/
def rootElement? (d : Document) : Option Node :=
  d.root.elements.head?

/-- The name of an element as written in its start tag. -/
def tagName? (d : Document) (element : Node) : Option String :=
  element.startTag?.bind fun tag => (tag.child? .tagName).map fun name => d.slice name.range

/-- An attribute of a start tag. -/
def attributeOf? (d : Document) (n : Node) : Option TagAttribute :=
  (n.child? .attributeName).map fun name =>
    ⟨d.slice name.range, n.valueRange?.map d.slice, name.range, n.valueRange?⟩

/-- The attributes of an element. -/
def attributes (d : Document) (element : Node) : List TagAttribute :=
  match element.startTag? with
  | none => []
  | some tag => (tag.children.filter fun c => c.is .attribute).filterMap d.attributeOf?

/-- The first attribute of an element with a name. -/
def attribute? (d : Document) (element : Node) (name : String) : Option TagAttribute :=
  (d.attributes element).find? fun a => a.name == name

/-- The byte offset of a position. -/
def offsetAt (d : Document) (p : Position) : Nat :=
  Text.offsetAt d.text p

/-- The position of a byte offset. -/
def positionAt (d : Document) (offset : Nat) : Position :=
  Text.positionAt d.text offset

/-- The span of a range. -/
def spanOf (d : Document) (r : ByteRange) : Span :=
  Text.spanOf d.text r

end Document

end ComponentAtlas.Markup
