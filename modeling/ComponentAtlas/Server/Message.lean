import ComponentAtlas.Features.Completion
import ComponentAtlas.Features.Definition
import ComponentAtlas.Features.Hover
import ComponentAtlas.Json.Value
import ComponentAtlas.Server.Workspace

/-!
# Messages of the editor protocol

The JSON form of the values that the editor protocol exchanges.
-/

namespace ComponentAtlas.Server

open ComponentAtlas.Json ComponentAtlas.Text

/-- The JSON form of a position. -/
def positionValue (p : Position) : Value :=
  .object [("line", .ofNat p.line), ("character", .ofNat p.character)]

/-- The JSON form of a span. -/
def rangeValue (s : Span) : Value :=
  .object [("start", positionValue s.start), ("end", positionValue s.stop)]

/-- The JSON form of a text in markdown. -/
def markdownValue (text : String) : Value :=
  .object [("kind", .string "markdown"), ("value", .string text)]

/-- The JSON form of a hover. -/
def hoverValue (h : Hover) : Value :=
  .object [("contents", markdownValue h.markdown), ("range", rangeValue h.span)]

/-- The JSON form of a location. -/
def locationValue (l : Location) : Value :=
  .object [("uri", .string l.uri), ("range", rangeValue l.span)]

/-- The number of a kind of completion. -/
def completionCode : CompletionKind → Nat
  | .component => 7
  | .property => 10
  | .method => 2

/-- A field that is left out when it has no value. -/
def optionalField (key : String) (f : String → Value) : Option String → Fields
  | none => []
  | some text => [(key, f text)]

/-- The JSON form of a completion. -/
def completionValue (c : Completion) : Value :=
  .object ([("label", .string c.label), ("kind", .ofNat (completionCode c.kind))] ++
    optionalField "detail" .string c.detail ++
    optionalField "documentation" markdownValue c.documentation)

/-- The JSON form of a watcher. -/
def Watcher.value (w : Watcher) : Value :=
  .object (("globPattern", .string w.pattern) ::
    match w.kind with
    | none => []
    | some kind => [("kind", .ofNat kind)])

end ComponentAtlas.Server
