import ComponentAtlas.Server.Call
import ComponentAtlas.Server.Report
import ComponentAtlas.Session.DerivedConfig
import ComponentAtlas.Session.Documents
import ComponentAtlas.Session.Update

/-!
# The server

A server starts with the first request of an editor, which names the roots of the workspace. From
then on it keeps a session on them and the texts of open documents. Every call leads to a new
server, the messages that it sends to the editor, and a response if the call is a request.
-/

namespace ComponentAtlas

/-- Where a server is in its life. -/
inductive Server.Phase where
  | fresh
  | running
  | stopped
  | ended
  deriving DecidableEq, Repr

/-- A server with the files that it works on. `refusal` is what the editor answers to every
request of the server when it does not grant it. -/
structure Server where
  files : FileTree
  refusal : Option Server.Refusal := none
  phase : Server.Phase := .fresh
  session : Option Session := none
  documents : List (String × String) := []

namespace Server

open ComponentAtlas.Json ComponentAtlas.Text

/-- What a request gets. -/
inductive Response where
  | result (v : Value)
  | refused (r : Refusal)

/-- The server with what has become of its files and session. -/
def withProject (s : Server) (p : Project) : Server :=
  { s with files := p.files, session := some p.session }

/-- The session of a server together with its files. -/
def project? (s : Server) : Option Project :=
  s.session.map fun session => ⟨s.files, session⟩

/-! ## Open documents -/

/-- The server after a document got a text. -/
def setText (s : Server) (document : Uri) (text : String) : Server :=
  let key := document.render
  { s with documents := (key, text) :: s.documents.filter fun d => d.1 != key }

/-- The server after a document was closed. -/
def dropText (s : Server) (document : Uri) : Server :=
  { s with documents := s.documents.filter fun d => d.1 != document.render }

/-- The text of an open document. -/
def openText? (s : Server) (document : Uri) : Option String :=
  s.documents.lookup document.render

/-- The path and text of a document: the open text, or else that of the file. -/
def document? (s : Server) (document : Uri) : Option (Path × String) := do
  let path ← document.toPath?
  let text ← s.openText? document <|> (s.files.read path).toOption
  return (path, text)

theorem openText?_setText (s : Server) (document : Uri) (text : String) :
    (s.setText document text).openText? document = some text := by
  simp [setText, openText?]

theorem openText?_dropText (s : Server) (document : Uri) :
    (s.dropText document).openText? document = none := by
  rw [dropText, openText?, List.lookup_eq_none_iff]
  intro d h
  simpa [eq_comm (a := d.1)] using (List.mem_filter.mp h).2

/-! ## Sessions -/

/-- The text of a failure to index. -/
def failureText (e : ConfigError) : String :=
  "Config error: " ++ e.message

/-- What is told after the derived configuration was written. -/
def configReports : Except ConfigError ConfigReport → List Report
  | .ok report => report.errors.map fun e => .log .warning ("Project config: " ++ e.message)
  | .error e => [.log .warning ("Project config not written: " ++ failureText e)]

/-- Writes the derived configuration and tells what went wrong. -/
def writeConfig (p : Project) : Project × List Report :=
  let (p, result) := p.writeConfig
  (p, configReports result)

/-- Tells what is in a session. -/
def describe (p : Project) : Report :=
  let owned (d : Dialect) : String := toString (p.index.registry d).owned.length
  .log .info ("Workspace type: " ++ p.session.workspace.kind.name ++ ", " ++ owned .lwc ++
    " LWC components, " ++ owned .aura ++ " Aura components")

/-- Starts a session: everything is indexed and the derived configuration written. -/
def start (t : FileTree) (roots : List Path) : Project × List Report :=
  let (p, _) := Project.fullIndex ⟨t, .load t roots⟩
  writeConfig p

/-! ## Requests -/

/-- The command that builds the index anew. -/
def refreshCommand : String := "lightning-lsp.refreshIndex"

/-- The token of the progress of that command. -/
def refreshToken : String := "lightning-lsp/refresh"

/-- What the server tells about itself. -/
def introduction : Value :=
  .object [
    ("serverInfo", .object [("name", .string "lightning-lsp"), ("version", .string "0.1.0")]),
    ("capabilities", .object [
      ("textDocumentSync", .ofNat 1),
      ("hoverProvider", .bool true),
      ("definitionProvider", .bool true),
      ("completionProvider", .object [
        ("triggerCharacters", .ofStrings ["<", " ", "\x7b", ".", ":", "-"])]),
      ("executeCommandProvider", .object [("commands", .ofStrings [refreshCommand])])])]

/-- Builds the index anew, tells of the progress, and says how it went. -/
def refresh (p : Project) : Project × List Report × Value :=
  let (p, result) := p.rebuild
  let (p, config) := writeConfig p
  let progress : Progress → Report := .progress refreshToken
  let reports := [.makeToken refreshToken,
    progress (.started "Refreshing component index" "Compiling components..."),
    progress (.reached 80 "Writing project configuration...")] ++ config
  match result with
  | .ok summary =>
      (p, reports ++ [
        progress (.ended ("Indexed " ++ toString summary.tags ++ " components")), describe p],
        .object [("success", .bool true), ("components", .ofNat summary.tags)])
  | .error e =>
      (p, reports ++ [progress (.ended "Index refresh failed"),
        .log .error ("Index refresh failed: " ++ failureText e)],
        .object [("success", .bool false)])

/-- Runs a command. -/
def execute (s : Server) (command : String) : Server × List Report × Value :=
  if command != refreshCommand then
    (s, [.log .warning ("Unknown command: " ++ command)], .null)
  else
    match s.project? with
    | none => (s, [], .null)
    | some p =>
        let (p, reports, result) := refresh p
        (s.withProject p, reports, result)

/-- The answer to a question on a document. -/
def answer (p : Project) (q : Question) (path : Path) (text : String) (at_ : Position) : Value :=
  match q with
  | .completion =>
      .ofOption (fun items => .array (items.map completionValue)) (p.completion? path text at_)
  | .hover => .ofOption hoverValue (p.hover? path text at_)
  | .definition => .ofOption locationValue (p.definition? path text at_)

/-- Answers a question on a document. -/
def ask (s : Server) (q : Question) (document : Uri) (at_ : Position) : Server × Value :=
  match s.project?, s.document? document with
  | some p, some (path, text) => (s.withProject (p.rememberFor path), answer p q path text at_)
  | _, _ => (s, .null)

/-- Acts on a request. -/
def handle (s : Server) : Request → Server × List Report × Value
  | .start roots =>
      let (p, reports) := start s.files roots
      (s.withProject p, reports, introduction)
  | .shutdown => (s, [], .null)
  | .executeCommand command => s.execute command
  | .ask q document at_ =>
      let (s, v) := s.ask q document at_
      (s, [], v)

/-! ## Notifications -/

/-- Greets the editor and asks it to watch the files. -/
def greet (s : Server) : List Report :=
  .log .info "Lightning Language Server initialized" ::
    (s.project?.map describe).toList ++ [.watch watchers] ++
    (s.refusal.map fun r => .log .warning ("File watchers not registered: " ++ r.text)).toList

/-- Brings a batch of changes into the index, and what follows from it into the derived
configuration. Where nothing was looked at, nothing is written. -/
def update (p : Project) (changes : List FileChange) : Project × List Report :=
  let (p, result) := p.applyChanges changes
  if result.toOption = some {} then (p, [])
  else
    let failure := match result with
      | .ok _ => []
      | .error e => [.log .error ("Failed to update index: " ++ failureText e)]
    let (p, config) := writeConfig p
    (p, failure ++ config)

/-- Starts a new session on the roots of an old one. -/
def restart (p : Project) : Project × List Report :=
  let (q, reports) := start p.files p.session.workspace.roots
  (q, .log .info "Project configuration changed, re-indexing" :: reports ++ [describe q])

/-- Acts on changes of files. Those of the files that describe the workspace ask for a new
session. -/
def filesChanged (p : Project) (changes : List FileChange) : Project × List Report :=
  if changes.isEmpty then (p, [])
  else if changes.any fun c => p.session.isConfigFile c.path then restart p
  else update p changes

/-- Acts on a notification. -/
def note (s : Server) : Notification → Server × List Report
  | .initialized => (s, s.greet)
  | .opened document text => (s.setText document text, [])
  | .changed document (some text) => (s.setText document text, [])
  | .changed _ none => (s, [])
  | .closed document => (s.dropText document, [])
  | .filesChanged changes =>
      match s.project? with
      | none => (s, [])
      | some p =>
          let (p, reports) := filesChanged p changes
          (s.withProject p, reports)

/-! ## Calls -/

/-- Why a phase does not let a call through: only a running server takes calls, and only a fresh
one the first request. -/
def Phase.refusal? (phase : Phase) (method : String) : Option Refusal :=
  if method = "initialize" then if phase = .fresh then none else some .invalidRequest
  else match phase with
    | .running => none
    | .fresh => some .uninitialized
    | .stopped | .ended => some .invalidRequest

/-- The phase after a request was let through. -/
def phaseAfter (method : String) (phase : Phase) : Phase :=
  if method = "shutdown" then .stopped else phase

/-- Acts on a request that was let through. -/
def accept (s : Server) (method : String) (params : Value) : Server × List Report × Response :=
  let s := { s with phase := phaseAfter method s.phase }
  if notifications.contains method then (s, [], .refused .invalidRequest)
  else if unservedRequests.contains method then (s, [], .refused .unknownMethod)
  else
    match Request.ofParams? method params with
    | none => (s, [], .refused .invalidParams)
    | some r =>
        let (s, reports, v) := s.handle r
        let s := if method = "initialize" then { s with phase := .running } else s
        (s, reports, .result v)

/-- Whether a method is one of the protocol. -/
def knows (method : String) : Bool :=
  servedRequests.contains method || unservedRequests.contains method ||
    notifications.contains method

/-- Takes a request. -/
def request (s : Server) (method : String) (params : Value) : Server × List Report × Response :=
  if !knows method then (s, [], .refused .unknownMethod)
  else
    match s.phase.refusal? method with
    | some r => (s, [], .refused r)
    | none => s.accept method params

/-- Takes a notification. One that is not let through has no effect, and a request that wants no
response only changes the phase. -/
def notify (s : Server) (method : String) (params : Value) : Server × List Report :=
  if method = "exit" then ({ s with phase := .ended }, [])
  else if s.phase != .running then (s, [])
  else
    match Notification.ofParams? method params with
    | some n => s.note n
    | none => ({ s with phase := phaseAfter method s.phase }, [])

end Server

end ComponentAtlas
