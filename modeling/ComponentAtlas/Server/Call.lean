import ComponentAtlas.Json.Value
import ComponentAtlas.Server.Workspace

/-!
# Calls of the editor protocol

An editor sends requests, which want a response, and notifications, which want none. This module
says which methods there are, and reads the parameters of those that the server acts on.
-/

namespace ComponentAtlas.Server

open ComponentAtlas.Json ComponentAtlas.Text

/-- Why a request gets no result. -/
inductive Refusal where
  | uninitialized
  | invalidRequest
  | unknownMethod
  | invalidParams
  deriving DecidableEq, Repr

namespace Refusal

/-- The number of a refusal is below zero; this is its distance from zero. -/
def code : Refusal → Nat
  | .uninitialized => 32002
  | .invalidRequest => 32600
  | .unknownMethod => 32601
  | .invalidParams => 32602

/-- What a refusal means. -/
def meaning : Refusal → String
  | .uninitialized => "Server not initialized"
  | .invalidRequest => "Invalid request"
  | .unknownMethod => "Method not found"
  | .invalidParams => "Invalid params"

/-- The text of a refusal: what it means, and the message that came with it. -/
def text (r : Refusal) : String := r.meaning ++ ": " ++ r.meaning

end Refusal

/-- The questions on a position of a document. -/
inductive Question where
  | completion
  | hover
  | definition
  deriving DecidableEq, Repr

/-- The requests that the server acts on. -/
inductive Request where
  | start (roots : List Path)
  | shutdown
  | executeCommand (command : String)
  | ask (q : Question) (document : Uri) (at_ : Position)

/-- The notifications that the server acts on. A change without text leaves the document alone. -/
inductive Notification where
  | initialized
  | opened (document : Uri) (text : String)
  | changed (document : Uri) (text : Option String)
  | closed (document : Uri)
  | filesChanged (changes : List FileChange)

/-- The requests of the protocol that the server has no answer for. -/
def unservedRequests : List String :=
  ["textDocument/willSaveWaitUntil", "textDocument/declaration", "textDocument/typeDefinition",
    "textDocument/implementation", "textDocument/references", "textDocument/prepareCallHierarchy",
    "callHierarchy/incomingCalls", "callHierarchy/outgoingCalls",
    "textDocument/prepareTypeHierarchy", "typeHierarchy/supertypes", "typeHierarchy/subtypes",
    "textDocument/documentHighlight", "textDocument/documentLink", "documentLink/resolve",
    "textDocument/codeLens", "codeLens/resolve", "textDocument/foldingRange",
    "textDocument/selectionRange", "textDocument/documentSymbol",
    "textDocument/semanticTokens/full", "textDocument/semanticTokens/full/delta",
    "textDocument/semanticTokens/range", "textDocument/inlineValue", "textDocument/inlayHint",
    "inlayHint/resolve", "textDocument/moniker", "completionItem/resolve",
    "textDocument/diagnostic", "workspace/diagnostic", "textDocument/signatureHelp",
    "textDocument/codeAction", "codeAction/resolve", "textDocument/documentColor",
    "textDocument/colorPresentation", "textDocument/formatting", "textDocument/rangeFormatting",
    "textDocument/onTypeFormatting", "textDocument/rename", "textDocument/prepareRename",
    "textDocument/linkedEditingRange", "workspace/symbol", "workspaceSymbol/resolve",
    "workspace/willCreateFiles", "workspace/willRenameFiles", "workspace/willDeleteFiles"]

/-- The requests of the protocol that the server answers. -/
def servedRequests : List String :=
  ["initialize", "shutdown", "workspace/executeCommand", "textDocument/completion",
    "textDocument/hover", "textDocument/definition"]

/-- The notifications of the protocol. -/
def notifications : List String :=
  ["initialized", "exit", "textDocument/didOpen", "textDocument/didChange",
    "textDocument/willSave", "textDocument/didSave", "textDocument/didClose",
    "workspace/didChangeConfiguration", "workspace/didChangeWorkspaceFolders",
    "workspace/didCreateFiles", "workspace/didRenameFiles", "workspace/didDeleteFiles",
    "workspace/didChangeWatchedFiles"]

namespace Params

/-- A parameter that is a text. -/
def string? (v : Value) (key : String) : Option String :=
  (v.get? key).bind Value.string?

/-- A parameter that is a number. -/
def natural? (v : Value) (key : String) : Option Nat :=
  (v.get? key).bind Value.natural?

/-- The URI of the document that a call is about. -/
def document? (v : Value) : Option Uri := do
  Uri.read? (← string? (← v.get? "textDocument") "uri")

/-- The position that a call is about. -/
def position? (v : Value) : Option Position := do
  let p ← v.get? "position"
  return ⟨← natural? p "line", ← natural? p "character"⟩

/-- The URIs of the folders of a workspace; there may be none. -/
def folders? (v : Value) : Option (List String) :=
  match v.get? "workspaceFolders" with
  | none | some .null => some []
  | some folders => folders.array?.bind (·.mapM (string? · "uri"))

/-- The URI of the root of a workspace, if it is given. -/
def rootUri? (v : Value) : Option (Option String) :=
  match v.get? "rootUri" with
  | none | some .null => some none
  | some uri => uri.string?.map some

/-- The roots that the parameters of the first request name. -/
def roots? (v : Value) : Option (List Path) := do
  return collectRoots (← folders? v) (← rootUri? v)

/-- The change that an event names, which may be no change of a file. -/
def fileEvent? (v : Value) : Option (Option FileChange) := do
  return fileChange? (← string? v "uri") (← natural? v "type")

/-- The changes of files among the events that a call names. -/
def fileEvents? (v : Value) : Option (List FileChange) := do
  let events ← (← v.get? "changes").array?
  return (← events.mapM fileEvent?).filterMap id

/-- The text of a document after the last of its changes. -/
def lastText? (v : Value) : Option (Option String) := do
  let changes ← (← v.get? "contentChanges").array?
  return (← changes.mapM (string? · "text")).getLast?

end Params

/-- A question on a position of a document, from its parameters. -/
def Question.ofParams? (q : Question) (v : Value) : Option Request := do
  return .ask q (← Params.document? v) (← Params.position? v)

/-- The request of a served method, from its parameters. -/
def Request.ofParams? (method : String) (v : Value) : Option Request :=
  match method with
  | "initialize" => (Params.roots? v).map .start
  | "shutdown" => match v with
      | .null => some .shutdown
      | _ => none
  | "workspace/executeCommand" => (Params.string? v "command").map .executeCommand
  | "textDocument/completion" => Question.completion.ofParams? v
  | "textDocument/hover" => Question.hover.ofParams? v
  | "textDocument/definition" => Question.definition.ofParams? v
  | _ => none

/-- The notification of a method that the server acts on, from its parameters. -/
def Notification.ofParams? (method : String) (v : Value) : Option Notification :=
  match method with
  | "initialized" => some .initialized
  | "textDocument/didOpen" => do
      return .opened (← Params.document? v) (← Params.string? (← v.get? "textDocument") "text")
  | "textDocument/didChange" => do
      return .changed (← Params.document? v) (← Params.lastText? v)
  | "textDocument/didClose" => (Params.document? v).map .closed
  | "workspace/didChangeWatchedFiles" => (Params.fileEvents? v).map .filesChanged
  | _ => none

end ComponentAtlas.Server
