import ComponentAtlas.Metadata.Diagnostic
import ComponentAtlas.Script.DocComment
import ComponentAtlas.Script.Language

/-!
# Components in scripts

The component of a script is the class that it exports by default, directly or by its name. Its
members are the fields, methods and accessors of the class that are neither static nor the
constructor. A script without such a class is no component and has no members.
-/

namespace ComponentAtlas.Script

open ComponentAtlas.Text

/-- A member of a class body, with what is written in front of it. -/
structure MemberNode where
  name : String
  kind : MemberKind
  isStatic : Bool
  decorators : List String
  doc : Option String
  range : ByteRange
  valueType : Option String
  deriving DecidableEq, Repr

/-- A class with its documentation. -/
structure ClassNode where
  doc : Option String
  range : ByteRange
  members : List MemberNode
  deriving DecidableEq, Repr

namespace Node

/-- The text of a node. -/
def text (source : List Char) (n : Node) : List Char :=
  n.range.slice source

/-- Nodes, each with the one in front of it. -/
def withPrevious : Option Node → List Node → List (Option Node × Node)
  | _, [] => []
  | previous, n :: rest => (previous, n) :: withPrevious (some n) rest

/-- The documentation that a node in front of another one gives it. -/
def documentation? (source : List Char) (previous : Option Node) : Option String :=
  (previous.filter fun p => p.is .comment).bind fun p => Script.documentation? (p.text source)

/-- The name of a decorator up to the first character that is not part of a name. -/
def decoratorName (source : List Char) (n : Node) : String :=
  let name := (n.text source).dropWhile (· == '@')
  String.ofList (name.takeWhile fun c => isLetterOrNumber c || c == '_' || c == '$')

/-- The word for the type of a literal. -/
def literalType? (n : Node) : Option String :=
  match n.kind with
  | .string => some "string"
  | .template => some "string"
  | .number => some "number"
  | .boolean => some "boolean"
  | .array => some "array"
  | .object => some "object"
  | _ => none

/-- The type of the value behind the name of a field. -/
def valueType? (n : Node) : Option String :=
  match n.children.dropWhile fun c => !c.is .memberName with
  | _ :: value :: _ => value.literalType?
  | _ => none

/-- The kind of member that a node of a class body declares; an accessor is a property. -/
def memberKind? (n : Node) : Option MemberKind :=
  if n.is .field then some .property
  else if n.is .method then some (if (n.child? .accessor).isSome then .property else .method)
  else none

/-- The name of the member that a node declares. -/
def memberName? (source : List Char) (n : Node) : Option String :=
  (n.child? .memberName).map fun name => String.ofList (name.text source)

/-- The member that a node of a class body declares, given the decorators in front of it and the
node in front of them all. -/
def member? (source : List Char) (previous : Option Node) (front : List Node) (n : Node) :
    Option MemberNode := do
  let kind ← n.memberKind?
  let name ← n.memberName? source
  return {
    name
    kind
    isStatic := (n.child? .static).isSome
    decorators := (front ++ n.children.filter fun c => c.is .decorator).map (decoratorName source)
    doc := documentation? source previous
    range := n.range
    valueType := if n.is .field then n.valueType? else none }

/-- The members that nodes of a class body declare, each node with the one in front of it.
Decorators that stand by themselves wait for the next field, method or accessor. -/
def membersOf (source : List Char) :
    List (Option Node × Node) → List (Option Node × Node) → List MemberNode
  | _, [] => []
  | waiting, i :: rest =>
      if i.2.is .decorator then membersOf source (waiting ++ [i]) rest
      else if i.2.memberKind?.isNone then membersOf source waiting rest
      else
        (member? source (waiting.headD i).1 (waiting.map Prod.snd) i.2).toList ++
          membersOf source [] rest

/-- The nodes in the body of a class. -/
def bodyNodes (n : Node) : List Node :=
  ((n.child? .classBody).map children).getD []

/-- The class of a node, with the documentation of a node in front of it. -/
def toClass (source : List Char) (previous : Option Node) (n : Node) : ClassNode :=
  ⟨documentation? source previous, n.range,
    membersOf source [] (withPrevious none n.bodyNodes)⟩

/-- The name of a class. -/
def className? (source : List Char) (n : Node) : Option (List Char) :=
  (n.child? .className).map (text source)

/-- The first class with a name that is declared among statements. -/
def declaredClass? (source : List Char) (items : List (Option Node × Node)) (name : List Char) :
    Option (Option Node × Node) :=
  items.find? fun i => i.2.is .classDeclaration && className? source i.2 == some name

/-- The class that a default export gives, with the node in front of the export or of the
declaration. -/
def exportedClass? (source : List Char) (items : List (Option Node × Node))
    (previous : Option Node) (n : Node) : Option (Option Node × Node) :=
  if n.is .defaultExport then
    (n.children.find? fun c => !c.is .decorator).bind fun value =>
      if value.is .classDeclaration || value.is .classExpression then some (previous, value)
      else if value.is .name then declaredClass? source items (value.text source)
      else none
  else none

/-- The class of the component in a program: that of the first default export that has one. -/
def classNode? (source : List Char) (program : Node) : Option (Option Node × Node) :=
  let items := withPrevious none program.children
  items.findSome? fun i => exportedClass? source items i.1 i.2

/-- The class of the component in a program with its documentation and members. -/
def componentClass? (source : List Char) (program : Node) : Option ClassNode :=
  (classNode? source program).map fun (previous, n) => toClass source previous n

end Node

namespace MemberNode

/-- The first decorator that changes how a member is seen. -/
def decorator? (m : MemberNode) : Option DecoratorKind :=
  m.decorators.findSome? DecoratorKind.ofName?

/-- Whether a member belongs to the component. -/
def isInstance (m : MemberNode) : Bool :=
  !m.isStatic && m.name != "constructor"

/-- The class member that a member declares. -/
def toMember (source : List Char) (m : MemberNode) : ClassMember :=
  ⟨m.name, m.kind, m.decorator?, m.doc, some (.ofBytes source m.range), m.valueType⟩

end MemberNode

/-- The decorators with a target more for one of them. -/
def addTarget (kind : DecoratorKind) (target : DecoratorTarget) :
    List Decorator → List Decorator
  | [] => [⟨kind, [target]⟩]
  | d :: rest =>
      if d.kind = kind then { d with targets := d.targets ++ [target] } :: rest
      else d :: addTarget kind target rest

/-- The decorators on some members, each with its targets in order. -/
def decoratorsOf (members : List ClassMember) : List Decorator :=
  members.foldl (fun found m =>
    match m.decorator with
    | some kind => addTarget kind ⟨m.name, m.kind⟩ found
    | none => found) []

/-- The metadata of a class. -/
def ClassNode.metadata (source : List Char) (c : ClassNode) : Metadata :=
  let members := (c.members.filter MemberNode.isInstance).map (MemberNode.toMember source)
  Metadata.normalize
    ⟨c.doc, some (.ofBytes source c.range), members, decoratorsOf members⟩

/-- The line at the start of a script that names its interpreter. -/
def interpreterLine (text : List Char) : List Char :=
  match text with
  | '#' :: '!' :: _ => text.takeWhile (· != '\n')
  | _ => []

/-- Matches the program of a script. -/
def readProgram (tolerant : Bool) (source : List Char) : Outcome :=
  Rule.run Language.rules tolerant (50 * source.length + 500) (.ref .program)
    ((Cursor.start source).past (interpreterLine source))

/-- The diagnostic for the place up to which a script could be read. -/
def diagnosticAt (source : List Char) (r : Reach) : Diagnostic :=
  let point := SourcePoint.ofOffset source r.offset
  match r.closing with
  | some sign =>
      if byteSize source ≤ r.offset then ⟨"Missing " ++ sign, some point⟩
      else ⟨"Unexpected token", some point⟩
  | none => ⟨"Unexpected token", some point⟩

/-- Whether scripts of a file are read tolerantly, because they may have annotations of types. -/
def isTyped (file : String) : Bool :=
  ".ts".toList.reverse.isPrefixOf file.toList.reverse

/-- The metadata of a script. A file with annotations is read tolerantly if need be, but then has
to have a class. -/
def metadata (source : String) (file : String) : Except (List Diagnostic) Metadata :=
  let text := source.toList
  let strict := readProgram false text
  match strict.found with
  | some (_, program :: _) =>
      .ok (((program.componentClass? text).map (ClassNode.metadata text)).getD .empty)
  | _ =>
      let found : Option ClassNode :=
        if isTyped file then
          match (readProgram true text).found with
          | some (_, program :: _) => program.componentClass? text
          | _ => none
        else none
      match found with
      | some c => .ok (c.metadata text)
      | none => .error [diagnosticAt text strict.reach]

end ComponentAtlas.Script
