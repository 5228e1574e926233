import ComponentAtlas.Binding.Scan
import ComponentAtlas.Markup.Document

/-!
# Bindings in a document

The binding under a cursor is found in the text around the cursor or in the value of the
attribute that it touches. A property may be declared by the document itself: by an iteration
around the cursor, and in aura markup by an attribute declaration of the component.
-/

namespace ComponentAtlas.Binding

open ComponentAtlas.Text ComponentAtlas.Markup

/-- Whether the innermost of some nodes belongs to a start tag. -/
def inStartTag (around : List Node) : Bool :=
  match around.find? fun n =>
    n.is .startTag || n.is .selfClosingTag || n.is .element || n.is .document with
  | some n => n.is .startTag || n.is .selfClosingTag
  | none => false

/-- What a place in a document says about the text to scan for a cursor: nothing, that there is
none, or its range. -/
def regionAt (d : Document) (offset place : Nat) : Option (Option ByteRange) :=
  if inStartTag (d.around place) then
    some (((d.elementAt? place).bind fun element =>
      (d.attributes element).find? fun a => a.valueTouches offset).bind TagAttribute.valueRange)
  else
    let node := d.nodeAt place
    if node.is .text && node.range.touches offset then some (some node.range) else none

/-- The range of the text to scan for a cursor. A cursor at the end of a text is at the start of
the next node, so the place in front of it counts too. -/
def region? (d : Document) (offset : Nat) : Option ByteRange :=
  match regionAt d offset offset with
  | some r => r
  | none => (regionAt d offset (offset - 1)).getD none

/-- The binding under a cursor. -/
def at? (dialect : Dialect) (d : Document) (offset : Nat) : Option Binding :=
  (region? d offset).bind fun r =>
    (((scan dialect (r.slice d.text)).map fun b => b.shift r.start).find?
      fun b => b.range.touches offset)

/-- The range of the iteration variable that an attribute of a template declares. -/
def templateDeclaration? (property : String) (a : TagAttribute) : Option ByteRange :=
  if a.name == "for:item" && a.value == some property then a.valueRange
  else if a.name == "iterator:" ++ property then some a.nameRange
  else none

/-- The range of the value of an attribute of an element, when it is a given one. -/
def namedValue? (d : Document) (element : Node) (attributeName value : String) :
    Option ByteRange :=
  ((d.attribute? element attributeName).filter fun a => a.value == some value).bind
    TagAttribute.valueRange

/-- The range of the variable that an aura element declares for its content. -/
def iterationVariable? (d : Document) (property : String) (element : Node) :
    Option ByteRange :=
  if d.tagName? element = some "aura:iteration" then namedValue? d element "var" property
  else none

/-- The range of the name that an aura element declares for its component. -/
def declaredAttribute? (d : Document) (property : String) (element : Node) :
    Option ByteRange :=
  if d.tagName? element = some "aura:attribute" then namedValue? d element "name" property
  else none

/-- The range that declares a property in a document, as seen from an offset. -/
def declaration? (dialect : Dialect) (d : Document) (offset : Nat) (property : String) :
    Option ByteRange :=
  match dialect with
  | .lwc =>
      (d.elementsAround offset).findSome? fun element =>
        (d.attributes element).findSome? (templateDeclaration? property)
  | .aura =>
      ((d.elementsAround offset).findSome? (iterationVariable? d property)).or
        (d.rootElement?.bind fun root =>
          root.elements.findSome? (declaredAttribute? d property))

/-- The span that declares a property in a document. -/
def declaringSpan? (dialect : Dialect) (d : Document) (offset : Nat) (property : String) :
    Option Span :=
  (declaration? dialect d offset property).map d.spanOf

end ComponentAtlas.Binding
