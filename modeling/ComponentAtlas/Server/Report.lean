import ComponentAtlas.Server.Message

/-!
# What the server tells the editor

Besides its responses a server sends log messages, reports on the progress of long work, and the
wish to be told of file changes.
-/

namespace ComponentAtlas.Server

open ComponentAtlas.Json

/-- How much a log message matters. -/
inductive Level where
  | error
  | warning
  | info
  deriving DecidableEq, Repr

/-- The number of a level. -/
def Level.code : Level → Nat
  | .error => 1
  | .warning => 2
  | .info => 3

/-- The stages of long work. -/
inductive Progress where
  | started (title : String) (message : String)
  | reached (percentage : Nat) (message : String)
  | ended (message : String)
  deriving DecidableEq, Repr

/-- The JSON form of a stage. -/
def Progress.value : Progress → Value
  | .started title message =>
      .object [("kind", .string "begin"), ("title", .string title), ("cancellable", .bool false),
        ("message", .string message), ("percentage", .ofNat 0)]
  | .reached percentage message =>
      .object [("kind", .string "report"), ("cancellable", .bool false),
        ("message", .string message), ("percentage", .ofNat percentage)]
  | .ended message => .object [("kind", .string "end"), ("message", .string message)]

/-- A message to the editor. Progress needs a token, which the server asks the editor to make. -/
inductive Report where
  | log (level : Level) (text : String)
  | watch (watchers : List Watcher)
  | makeToken (token : String)
  | progress (token : String) (stage : Progress)
  deriving DecidableEq, Repr

namespace Report

/-- The method of a message. -/
def method : Report → String
  | .log _ _ => "window/logMessage"
  | .watch _ => "client/registerCapability"
  | .makeToken _ => "window/workDoneProgress/create"
  | .progress _ _ => "$/progress"

/-- The parameters of a message. -/
def params : Report → Value
  | .log level text => .object [("type", .ofNat level.code), ("message", .string text)]
  | .watch watchers =>
      .object [("registrations", .array [.object [
        ("id", .string "lightning-lsp/watchers"),
        ("method", .string "workspace/didChangeWatchedFiles"),
        ("registerOptions", .object [("watchers", .array (watchers.map Watcher.value))])]])]
  | .makeToken token => .object [("token", .string token)]
  | .progress token stage => .object [("token", .string token), ("value", stage.value)]

end Report

end ComponentAtlas.Server
