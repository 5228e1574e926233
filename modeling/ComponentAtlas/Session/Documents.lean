import ComponentAtlas.Features.Completion
import ComponentAtlas.Features.Definition
import ComponentAtlas.Features.Hover
import ComponentAtlas.Session.Basic

/-!
# Questions on documents

An editor asks about markup documents of the workspace. Only a file two levels below a namespace
root of its dialect is one of them; about any other file there is no answer.
-/

namespace ComponentAtlas

open ComponentAtlas.Text

namespace Project

/-- The project after the dialect of a document was asked for: only a file with the extension of
markup needs the namespace roots. -/
def rememberFor (p : Project) (path : Path) : Project :=
  if (Dialect.ofMarkupFile? path).isSome then p.remember else p

/-- The dialect of a document of the workspace. -/
def documentDialect? (p : Project) (path : Path) : Option Dialect := do
  let d ← Dialect.ofMarkupFile? path
  let roots ← p.namespaceRoots.toOption
  let root ← path.grandparent?
  if roots.contains d root then some d else none

/-- The completions at a position of a document with a given text. -/
def completion? (p : Project) (path : Path) (text : String) (at_ : Position) :
    Option (List Completion) :=
  (p.documentDialect? path).bind fun d =>
    Completion.at? p.index path d text.toList (offsetAt text.toList at_)

/-- The hover at a position of a document with a given text. -/
def hover? (p : Project) (path : Path) (text : String) (at_ : Position) : Option Hover :=
  (p.documentDialect? path).bind fun d =>
    let doc := Markup.Document.read text
    Hover.at? p.index path d doc (doc.offsetAt at_)

/-- The definition of what is at a position of a document with a given text. -/
def definition? (p : Project) (path : Path) (text : String) (at_ : Position) :
    Option Location :=
  (p.documentDialect? path).bind fun d =>
    let doc := Markup.Document.read text
    Definition.at? p.index path d doc (doc.offsetAt at_)

end Project

end ComponentAtlas
