import ComponentAtlas.Registry.Basic
import ComponentAtlas.Uri.Basic

/-!
# Finding tags

A tag is found by the identifier that markup writes, by its file, or by the identifier of a
document. An identifier with a colon has one reading; one with hyphens has a reading for each
registered namespace that ends at a hyphen.
-/

namespace ComponentAtlas

open ComponentAtlas.Text

namespace Registry

/-- The parts of a text around the first colon. -/
def splitColon? (text : List Char) : Option (List Char × List Char) :=
  let front := text.takeWhile (· != ':')
  match text.drop front.length with
  | ':' :: rest => some (front, rest)
  | _ => none

/-- The parts of a text around each of its hyphens, given what stands in front in reverse. -/
def hyphenSplits (front : List Char) : List Char → List (List Char × List Char)
  | [] => []
  | c :: rest =>
      (if c = '-' then [(front.reverse, rest)] else []) ++ hyphenSplits (c :: front) rest

/-- The readings of an identifier as a namespace and a local name. -/
def readings (namespaces : List String) (query : String) : List (String × String) :=
  match splitColon? query.toList with
  | some (space, localName) =>
      if space = [] ∨ localName = [] then []
      else [(String.ofList space, String.ofList localName)]
  | none =>
      ((hyphenSplits [] query.toList).filter fun (space, localName) =>
        !localName.isEmpty && namespaces.contains (String.ofList space)).map
        fun (space, localName) => (String.ofList space, String.ofList localName)

/-- The tag of an identifier: each reading is tried as it is, then in the other convention. -/
def find? (r : Registry) (query : String) : Option Tag :=
  (readings r.namespaces query).findSome? fun (space, localName) =>
    (r.get? (Identity.keyOf space localName)).or
      (r.get? (Identity.keyOf space (flipConvention localName)))

/-- The files that a document path may stand for: a template stands for its scripts. -/
def sourceCandidates (path : String) : List Path :=
  match stripFront? ".html".toList.reverse path.toList.reverse with
  | some stem =>
      Dialect.lwc.entryExtensions.map fun ext =>
        ⟨String.ofList stem.reverse ++ "." ++ ext⟩
  | none => [⟨path⟩]

/-- The first tag whose file ends like the path of a document. -/
def findUri? (r : Registry) (uri : String) : Option Tag :=
  let candidates := sourceCandidates (Uri.documentPath uri)
  r.tags.find? fun t => candidates.any t.file.endsWith

/-- The first tag with a file. -/
def tagForFile? (r : Registry) (p : Path) : Option Tag :=
  r.tags.find? fun t => t.file.same p

end Registry

end ComponentAtlas
