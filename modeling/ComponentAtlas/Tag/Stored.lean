import ComponentAtlas.Json.Record
import ComponentAtlas.Json.Printer
import ComponentAtlas.Tag.Basic

/-!
# Stored tags

The JSON form of a tag, in which snapshots keep it. Writing gives every key, also of absent
values; reading accepts every record with these keys.
-/

namespace ComponentAtlas

open ComponentAtlas.Json ComponentAtlas.Text

/-- The bound of line and column numbers. -/
def positionBound : Nat := 4294967296

/-- The bound of modification times. -/
def timeBound : Nat := 18446744073709551616

namespace Stored

/-- The JSON form of a span. -/
def spanValue (s : Span) : Value :=
  .object [("startLine", .ofNat s.startLine), ("startCol", .ofNat s.startCol),
    ("endLine", .ofNat s.endLine), ("endCol", .ofNat s.endCol)]

/-- The JSON form of an attribute. -/
def attributeValue (a : Attribute) : Value :=
  .object [("name", .string a.name), ("sourceName", .string a.sourceName),
    ("documentation", .ofOption .string a.documentation), ("kind", .string a.kind.word),
    ("origin", .string a.origin.word), ("type", .ofOption .string a.type),
    ("location", .ofOption spanValue a.location)]

/-- The JSON form of a member. -/
def memberValue (m : Member) : Value :=
  .object [("name", .string m.name), ("kind", .string m.kind.word),
    ("origin", .string m.origin.word), ("documentation", .ofOption .string m.documentation),
    ("type", .ofOption .string m.type), ("location", .ofOption spanValue m.location)]

/-- The JSON form of a tag. -/
def tagValue (t : Tag) : Value :=
  .object [("namespace", .string t.identity.space), ("name", .string t.identity.localName),
    ("delimiter", .string t.identity.delimiter.word), ("dialect", .string t.dialect.word),
    ("file", .string t.file.text), ("modifiedAt", .ofNat t.modifiedAt),
    ("documentation", .ofOption .string t.documentation),
    ("declaration", .ofOption spanValue t.declaration),
    ("attributes", .array (t.attributes.map attributeValue)),
    ("members", .array (t.members.map memberValue))]

/-- Reads a span. -/
def readSpan? (v : Located) : Option Span := do
  let r ← Record.complete? ["startLine", "startCol", "endLine", "endCol"] v
  let number := Located.below? positionBound
  return ⟨← r.required? "startLine" number, ← r.required? "startCol" number,
    ← r.required? "endLine" number, ← r.required? "endCol" number⟩

/-- Reads an attribute. -/
def readAttribute? (v : Located) : Option Attribute := do
  let r ← Record.complete?
    ["name", "sourceName", "documentation", "kind", "origin", "type", "location"] v
  return ⟨← r.required? "name" Located.string?, ← r.required? "sourceName" Located.string?,
    ← r.optional? "documentation" Located.string?,
    ← r.required? "kind" (Located.word? MemberKind.ofWord?),
    ← r.required? "origin" (Located.word? Origin.ofWord?),
    ← r.optional? "type" Located.string?, ← r.optional? "location" readSpan?⟩

/-- Reads a member. -/
def readMember? (v : Located) : Option Member := do
  let r ← Record.complete? ["name", "kind", "origin", "documentation", "type", "location"] v
  return ⟨← r.required? "name" Located.string?,
    ← r.required? "kind" (Located.word? MemberKind.ofWord?),
    ← r.required? "origin" (Located.word? Origin.ofWord?),
    ← r.optional? "documentation" Located.string?, ← r.optional? "type" Located.string?,
    ← r.optional? "location" readSpan?⟩

/-- The keys of a stored tag. -/
def tagKeys : List String :=
  ["namespace", "name", "delimiter", "dialect", "file", "modifiedAt", "documentation",
    "declaration", "attributes", "members"]

/-- Reads a tag, which is an object. -/
def readTag? (v : Located) : Option Tag := do
  let r ← (Record.ofLocated? tagKeys v).filter fun r => !r.positional
  return {
    identity := ⟨← r.required? "namespace" Located.string?, ← r.required? "name" Located.string?,
      ← r.required? "delimiter" (Located.word? Delimiter.ofWord?)⟩
    dialect := ← r.required? "dialect" (Located.word? Dialect.ofWord?)
    file := ⟨← r.required? "file" Located.string?⟩
    modifiedAt := ← r.required? "modifiedAt" (Located.below? timeBound)
    documentation := ← r.optional? "documentation" Located.string?
    declaration := ← r.optional? "declaration" readSpan?
    attributes := ← r.required? "attributes" (Located.items? readAttribute?)
    members := ← r.required? "members" (Located.items? readMember?) }

/-- The text of a list of tags: indented, with a line break at the end. -/
def writeTags (tags : List Tag) : String :=
  (Value.array (tags.map tagValue)).pretty ++ "\n"

/-- Reads a list of tags. -/
def readTags? (text : String) : Option (List Tag) :=
  (readLocated text).toOption.bind (Located.items? readTag?)

end Stored

end ComponentAtlas
