import ComponentAtlas.Script.TypeMark
import ComponentAtlas.Script.Insertion

/-!
# Grammars of scripts

A grammar gives a rule for each of its symbols. Matching a rule reads a front of the text and
gives the nodes that were built on the way; alternatives are tried in order and the first that
matches is taken. A chain builds its node from the left: each further step takes the node so far
as its first child, if it fits there.
-/

namespace ComponentAtlas.Script

open ComponentAtlas.Text

/-- The kinds of node that a script is read into. -/
inductive NodeKind where
  | program
  | comment
  | markupComment
  | statement
  | skipped
  | defaultExport
  | classDeclaration
  | classExpression
  | className
  | classBody
  | method
  | field
  | staticBlock
  | decorator
  | static
  | staticGetter
  | accessor
  | memberName
  | name
  | memberAccess
  | indexAccess
  | assignment
  | update
  | arrow
  | parameters
  | comma
  | spread
  | object
  | pair
  | shorthand
  | shorthandDefault
  | objectMethod
  | array
  | string
  | template
  | number
  | boolean
  | expression
  deriving DecidableEq, Repr, Inhabited

/-- A node with its range of bytes and its children in order. -/
inductive Node where
  | mk (kind : NodeKind) (range : ByteRange) (children : List Node)
  deriving Inhabited

namespace Node

/-- The kind of a node. -/
def kind : Node → NodeKind
  | mk k _ _ => k

/-- The range of a node. -/
def range : Node → ByteRange
  | mk _ r _ => r

/-- The children of a node. -/
def children : Node → List Node
  | mk _ _ cs => cs

/-- Whether a node is of a kind. -/
def is (n : Node) (k : NodeKind) : Bool := n.kind == k

/-- The first child of a kind. -/
def child? (n : Node) (k : NodeKind) : Option Node :=
  n.children.find? fun c => c.is k

/-- A node that takes another one as its first child. -/
def extend (base step : Node) : Node :=
  mk step.kind ⟨base.range.start, step.range.stop⟩ (base :: step.children)

mutual

/-- Whether a node is an expression: objects with defaults are patterns only. -/
def isExpression : Node → Bool
  | mk .object _ cs => areExpressions cs
  | mk .array _ cs => areExpressions cs
  | mk .spread _ cs => areExpressions cs
  | mk .pair _ cs => areExpressions cs
  | mk .parameters _ cs => !cs.isEmpty && areExpressions cs && cs.all fun c => !c.is .spread
  | mk .shorthandDefault _ _ => false
  | mk .comma _ _ => false
  | _ => true

/-- Whether all nodes are expressions. -/
def areExpressions : List Node → Bool
  | [] => true
  | c :: cs => c.isExpression && areExpressions cs

end

mutual

/-- Whether a node is a pattern: what a value can be bound to. -/
def isPattern : Node → Bool
  | mk .name _ _ => true
  | mk .memberAccess _ _ => true
  | mk .indexAccess _ _ => true
  | mk .object _ cs => arePatternParts cs
  | mk .array _ cs => arePatternParts cs
  | _ => false

/-- Whether all nodes can stand in a pattern. -/
def arePatternParts : List Node → Bool
  | [] => true
  | mk .pair _ cs :: rest => arePatternParts cs && arePatternParts rest
  | mk .spread _ cs :: rest => arePatternParts cs && arePatternParts rest
  | mk .shorthand _ _ :: rest => arePatternParts rest
  | mk .shorthandDefault _ _ :: rest => arePatternParts rest
  | mk .assignment _ cs :: rest => startsWithPattern cs && arePatternParts rest
  | c :: rest => c.isPattern && arePatternParts rest

/-- Whether the first of some nodes is a pattern. -/
def startsWithPattern : List Node → Bool
  | [] => false
  | c :: _ => c.isPattern

end

/-- Whether a node can stand in front of an assignment. -/
def isTarget (n : Node) : Bool :=
  n.isPattern || (n.is .parameters && n.isExpression)

/-- Whether a node can stand in front of an assignment that also reads it. -/
def isUpdatable (n : Node) : Bool :=
  n.isTarget && !n.is .object && !n.is .array

/-- Whether a node can be the parameters of an arrow. -/
def isParameters (n : Node) : Bool :=
  n.is .name || (n.is .parameters && arePatternParts (n.children.filter fun c => !c.is .comma))

/-- Whether a node can be the base of a step of some kind in a chain. -/
def fits (step : NodeKind) (n : Node) : Bool :=
  match step with
  | .assignment => n.isTarget
  | .update => n.isUpdatable
  | .arrow => n.isParameters
  | _ => n.isExpression

end Node

/-- The lexemes that are told apart by their form. -/
inductive Token where
  | word
  | privateName
  | number
  | string
  | pattern
  | templateText
  | tagText
  | tagName
  | tagValue
  | staticGetter
  | passedName (bare : Bool)
  | bareName
  | typeMark
  | anything (brace : Bool)
  deriving DecidableEq, Repr

namespace Token

/-- A getter that is static and whose name is on a later line: two words and the blanks behind
them up to their last line break. -/
def staticGetter? (text : List Char) : Option (List Char) := do
  let afterStatic ← stripFront? "static".toList text
  let gap := afterStatic.takeWhile isPlainBlank
  if gap = [] then none
  let afterGet ← stripFront? "get".toList (afterStatic.drop gap.length)
  let blanks := afterGet.takeWhile isPlainBlank
  let kept := trimEnd (· != '\n') blanks
  if kept = [] then none
  return "static".toList ++ gap ++ "get".toList ++ kept

/-- Any lexeme that can be skipped, or a single character. A closing brace only counts if it is
asked for. -/
def anything? (brace : Bool) (text : List Char) : Option (List Char) :=
  match word? text, string? text with
  | some run, _ => some run
  | none, some run => some run
  | none, none =>
      match text with
      | c :: _ => if c = '}' ∧ brace = false then none else some [c]
      | [] => none

/-- The lexeme of a token at the start of a text. -/
def lexeme? : Token → List Char → Option (List Char)
  | .word => word?
  | .privateName => privateName?
  | .number => number?
  | .string => string?
  | .pattern => pattern?
  | .templateText => templateText?
  | .tagText => tagText?
  | .tagName => tagName?
  | .tagValue => tagValue?
  | .staticGetter => staticGetter?
  | .passedName bare => passedName? bare
  | .bareName => bareName?
  | .typeMark => typeMark?
  | .anything brace => anything? brace

/-- Whether no gap may stand in front of a token. -/
def isGlued : Token → Bool
  | .templateText => true
  | .tagText => true
  | .typeMark => true
  | _ => false

end Token

/-- The symbols of the grammar. `open_` says that a statement may end behind the expression. -/
inductive Symbol where
  | program
  | statement
  | block (strict : Bool)
  | expression (open_ : Bool)
  | cover (open_ : Bool)
  | sequence (open_ : Bool)
  | reach (open_ : Bool)
  | arguments
  | parameters
  | group
  | template
  | tag
  | propertyName
  | decorator
  | declarators
  | classTail
  deriving DecidableEq, Repr

/-- A rule says which fronts of a text it matches and which nodes they give. -/
inductive Rule where
  | nothing
  | end_
  | token (t : Token)
  | word (text : String)
  | nameBut (words : List String)
  | sign (text : String)
  | glued (text : String)
  | comment
  | inserted (strict : Bool)
  | both (a b : Rule)
  | either (a b : Rule)
  | many (a : Rule)
  | absent (a : Rule)
  | node (kind : NodeKind) (a : Rule)
  | chain (base step : Rule)
  | check (holds : Node → Bool) (a : Rule)
  | tolerated (a : Rule)
  | ref (s : Symbol)

namespace Rule

/-- Rules one after the other. -/
def all : List Rule → Rule
  | [] => .nothing
  | [r] => r
  | r :: rest => .both r (all rest)

/-- The first of some rules that matches. -/
def any : List Rule → Rule
  | [] => .absent .nothing
  | [r] => r
  | r :: rest => .either r (any rest)

/-- A rule that may be left out. -/
def option (r : Rule) : Rule := .either r .nothing

/-- One or more of a rule with a sign between each two. -/
def list (sign : String) (r : Rule) : Rule :=
  .both r (.many (.both (.sign sign) r))

/-- A rule between two signs. -/
def between (front back : String) (r : Rule) : Rule :=
  all [.sign front, r, .sign back]

/-- The first of some words. -/
def anyWord (words : List String) : Rule := any (words.map .word)

/-- The first of some signs. -/
def anySign (signs : List String) : Rule := any (signs.map .sign)

end Rule

/-- How far a text could be read, and the closing sign that was missing there, if one was. -/
structure Reach where
  offset : Nat
  closing : Option String
  deriving Repr

namespace Reach

/-- The farther of two places; at the same place a missing closing sign counts. -/
def max (a b : Reach) : Reach :=
  if a.offset < b.offset then b
  else if b.offset < a.offset then a
  else ⟨a.offset, a.closing.or b.closing⟩

end Reach

/-- What matching a rule gives. -/
structure Outcome where
  found : Option (Cursor × List Node)
  reach : Reach

namespace Outcome

/-- A match without nodes. -/
def at_ (c : Cursor) : Outcome := ⟨some (c, []), ⟨0, none⟩⟩

/-- A failure to read a lexeme. -/
def missing (offset : Nat) (closing : Option String) : Outcome := ⟨none, ⟨offset, closing⟩⟩

/-- The outcome with the reach of an earlier try. -/
def after (o : Outcome) (r : Reach) : Outcome := ⟨o.found, r.max o.reach⟩

end Outcome

/-- The sign itself if it closes a bracket. -/
def closing? (sign : String) : Option String :=
  if [")", "]", "\x7d"].contains sign then some sign else none

/-- A lexeme behind a gap, if it is as expected. -/
def expect (fuel : Nat) (c : Cursor) (read : List Char → Option (List Char))
    (closing : Option String) : Outcome :=
  let start := skipGap fuel c
  match read start.rest with
  | some run => .at_ (start.past run)
  | none => .missing start.offset closing

/-- Matches a rule of a grammar at a cursor. -/
def Rule.run (rules : Symbol → Rule) (tolerant : Bool) : Nat → Rule → Cursor → Outcome
  | 0, _, c => .missing c.offset none
  | fuel + 1, rule, c =>
      match rule with
      | .nothing => .at_ c
      | .end_ =>
          let next := skipGap fuel c
          if next.rest.isEmpty then .at_ next else .missing next.offset none
      | .token t =>
          if t.isGlued then
            match t.lexeme? c.rest with
            | some run => .at_ (c.past run)
            | none => .missing c.offset none
          else expect fuel c t.lexeme? none
      | .word text => expect fuel c (fun cs => (word? cs).filter (· == text.toList)) none
      | .nameBut words =>
          expect fuel c (fun cs => (word? cs).filter fun run =>
            !words.contains (String.ofList run)) none
      | .sign text =>
          expect fuel c (fun cs => (sign? cs).filter (· == text.toList)) (closing? text)
      | .glued text =>
          if c.startsWith text.toList then .at_ (c.past text.toList) else .missing c.offset none
      | .comment =>
          let start := skipBlanks c
          let leaf (kind : NodeKind) (run : List Char) : Outcome :=
            let next := start.past run
            ⟨some (next, [.mk kind (start.rangeTo next) []]), ⟨0, none⟩⟩
          match comment? start.rest, markupComment? start.rest with
          | some run, _ => leaf .comment run
          | none, some run => leaf .markupComment run
          | none, none => .missing c.offset none
      | .inserted strict =>
          match insertionPoint? strict fuel c with
          | some next => .at_ next
          | none => .missing c.offset none
      | .both a b =>
          let first := run rules tolerant fuel a c
          match first.found with
          | none => first
          | some (next, front) =>
              let second := (run rules tolerant fuel b next).after first.reach
              ⟨second.found.map fun (last, back) => (last, front ++ back), second.reach⟩
      | .either a b =>
          let first := run rules tolerant fuel a c
          if first.found.isSome then first
          else (run rules tolerant fuel b c).after first.reach
      | .many a =>
          let first := run rules tolerant fuel a c
          match first.found with
          | none => (Outcome.at_ c).after first.reach
          | some (next, front) =>
              if next.offset ≤ c.offset then ⟨some (next, front), first.reach⟩
              else
                let rest := (run rules tolerant fuel (.many a) next).after first.reach
                ⟨rest.found.map fun (last, back) => (last, front ++ back), rest.reach⟩
      | .absent a =>
          match (run rules tolerant fuel a c).found with
          | some _ => .missing c.offset none
          | none => .at_ c
      | .node kind a =>
          let inner := run rules tolerant fuel a c
          ⟨inner.found.map fun (next, children) =>
              (next, [.mk kind ⟨(skipGap fuel c).offset, next.offset⟩ children]),
            inner.reach⟩
      | .chain base step =>
          let first := run rules tolerant fuel base c
          match first.found with
          | some (next, [left]) =>
              continueChain rules tolerant fuel step next left first.reach
          | _ => first
      | .check holds a =>
          let inner := run rules tolerant fuel a c
          match inner.found with
          | some (_, nodes) =>
              if nodes.getLast?.all holds then inner else ⟨none, inner.reach⟩
          | none => inner
      | .tolerated a =>
          if tolerant then run rules tolerant fuel a c else .missing c.offset none
      | .ref s => run rules tolerant fuel (rules s) c
where
  /-- Goes on with a chain behind a node. -/
  continueChain (rules : Symbol → Rule) (tolerant : Bool) : Nat → Rule → Cursor → Node → Reach →
      Outcome
    | 0, _, c, left, reach => ⟨some (c, [left]), reach⟩
    | fuel + 1, step, c, left, reach =>
        let second := run rules tolerant fuel step c
        let reach := reach.max second.reach
        match second.found with
        | some (last, [right]) =>
            if left.fits right.kind then
              continueChain rules tolerant fuel step last (left.extend right) reach
            else ⟨some (c, [left]), reach⟩
        | _ => ⟨some (c, [left]), reach⟩

end ComponentAtlas.Script
