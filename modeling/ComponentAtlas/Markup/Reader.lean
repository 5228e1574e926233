import ComponentAtlas.Markup.Node
import ComponentAtlas.Markup.TagName
import ComponentAtlas.Text.CharClass
import ComponentAtlas.Text.Cursor

/-!
# Reading markup

A text is read into a document from left to right with a list of open elements. In front of each
tag the innermost open element may end by itself; an end tag that closes no open element stays as
a stray end tag. Every text gives a document: what fits nowhere becomes an error node.
-/

namespace ComponentAtlas.Markup

open ComponentAtlas.Text

/-- A mark that comes next. -/
def markNode (c : Cursor) (text : String) : Node :=
  .leaf (.mark text) (c.rangeOf text.toList)

/-- A mark that is missing at a place. -/
def missingMark (offset : Nat) (text : String) : Node :=
  .leaf (.mark text) ⟨offset, offset⟩

/-- The characters of a comment behind its opening up to its end, given the number of dashes in
front. -/
def commentBody : Nat → List Char → Option (List Char)
  | _, [] => none
  | dashes, c :: rest =>
      if c = '>' ∧ 2 ≤ dashes then some ['>']
      else (commentBody (if c = '-' then dashes + 1 else 0) rest).map (c :: ·)

/-- Reads a comment. -/
def readComment? (c : Cursor) : Option (Node × Cursor) :=
  let opening := "<!--".toList
  if c.startsWith opening then
    (commentBody 0 (c.rest.drop opening.length)).map fun body =>
      let next := c.past (opening ++ body)
      (.leaf .comment (c.rangeTo next), next)
  else none

/-- Reads blanks and comments. -/
def readExtras : Nat → Cursor → List Node × Cursor
  | 0, c => ([], c)
  | fuel + 1, c =>
      let c := c.skip isSourceBlank
      match readComment? c with
      | none => ([], c)
      | some (comment, next) =>
          let (more, last) := readExtras fuel next
          (comment :: more, last)

/-- The cursor behind blanks and comments, and the comments. -/
def extras (c : Cursor) : List Node × Cursor :=
  readExtras (c.rest.length + 1) c

/-- The characters of attribute names. -/
def isAttributeChar (c : Char) : Bool :=
  !(isSourceBlank c || ['<', '>', '"', Char.ofNat 0x27, '/', '='].contains c)

/-- The characters of values without quotes. -/
def isValueChar (c : Char) : Bool :=
  isAttributeChar c || c == '/'

/-- Reads a value in quotes from its first quote on. -/
def readQuoted? (c : Cursor) (quote : Char) : Option (Node × Cursor) :=
  let inner := c.tail
  let body := inner.while_ (· != quote)
  let last := inner.past body
  match last.rest with
  | [] => none
  | _ :: _ =>
      let value := if body = [] then [] else [Node.leaf .attributeValue (inner.rangeOf body)]
      let mark := Kind.mark quote.toString
      some (.mk .quotedValue (c.rangeTo last.tail)
        (.leaf mark (c.rangeTo inner) :: value ++ [.leaf mark (last.rangeTo last.tail)]), last.tail)

/-- Reads the value of an attribute behind its equals sign; a missing value is empty. -/
def readValue? (c : Cursor) : Option (Node × Cursor) :=
  let next := c.skip isSourceBlank
  match next.head? with
  | none => none
  | some d =>
      if d = '"' ∨ d = Char.ofNat 0x27 then readQuoted? next d
      else if isValueChar d then
        let body := next.while_ isValueChar
        some (.leaf .attributeValue (next.rangeOf body), next.past body)
      else some (.leaf .attributeValue (c.rangeTo c), c)

/-- Reads an attribute from the start of its name on. -/
def readAttribute? (c : Cursor) : Option (Node × Cursor) :=
  let name := c.while_ isAttributeChar
  let named := c.past name
  let nameNode := Node.leaf .attributeName (c.rangeOf name)
  let sign := named.skip isSourceBlank
  if sign.head? = some '=' then
    (readValue? sign.tail).map fun (value, next) =>
      (.mk .attribute (c.rangeTo next) [nameNode, markNode sign "=", value], next)
  else some (.mk .attribute (c.rangeTo named) [nameNode], named)

/-- How a tag ends: by a bracket, by a slash and a bracket, in front of another tag, or not at all
before the end of the text. -/
inductive TagEnd where
  | closed
  | selfClosed
  | cut
  | unfinished
  deriving DecidableEq, Repr

/-- Reads a tag behind its name: its parts, how it ends, and the cursor behind it. The flag says
whether the tag may close itself. -/
def readTagRest (mayClose : Bool) : Nat → Cursor → List Node × TagEnd × Cursor
  | 0, c => ([], .unfinished, c)
  | fuel + 1, c =>
      let (comments, next) := extras c
      match next.rest with
      | [] => (comments, .unfinished, next)
      | '>' :: _ => (comments ++ [markNode next ">"], .closed, next.tail)
      | '<' :: _ => ([missingMark c.offset ">"], .cut, c)
      | d :: more =>
          if mayClose && d == '/' && more.head? == some '>' then
            (comments ++ [markNode next "/>"], .selfClosed, next.past ['/', '>'])
          else if isAttributeChar d then
            match readAttribute? next with
            | none => (comments ++ [.leaf .error (next.rangeTo (next.past next.rest))], .unfinished,
                next.past next.rest)
            | some (node, after) =>
                let (parts, ending, last) := readTagRest mayClose fuel after
                (comments ++ node :: parts, ending, last)
          else
            let (parts, ending, last) := readTagRest mayClose fuel next.tail
            (comments ++ .leaf .error (next.rangeTo next.tail) :: parts, ending, last)

/-- An element that is open: its name, its start tag and its children in reverse. -/
structure Frame where
  name : TagName
  head : Node
  children : List Node

namespace Frame

/-- Where the content of an open element ends so far. -/
def contentEnd (f : Frame) : Nat :=
  match f.children with
  | [] => f.head.range.stop
  | last :: _ => last.range.stop

/-- The element that ends at a place, with a last part. -/
def element (f : Frame) (stop : Nat) (last : List Node) : Node :=
  .mk .element ⟨f.head.range.start, stop⟩ (f.head :: f.children.reverse ++ last)

end Frame

/-- The open elements, innermost first, and the nodes outside all elements in reverse. -/
structure Progress where
  frames : List Frame
  top : List Node

namespace Progress

/-- Nothing read yet. -/
def start : Progress := ⟨[], []⟩

/-- The progress with one more node in the innermost open element. -/
def add (p : Progress) (n : Node) : Progress :=
  match p.frames with
  | [] => { p with top := n :: p.top }
  | f :: outer => { p with frames := { f with children := n :: f.children } :: outer }

/-- The progress with several more nodes. -/
def addAll (p : Progress) (nodes : List Node) : Progress :=
  nodes.foldl add p

/-- The progress with the innermost element ended at a place. -/
def close (p : Progress) (stop : Nat) (last : List Node) : Progress :=
  match p.frames with
  | [] => p
  | f :: outer => add { p with frames := outer } (f.element stop last)

/-- The names of the open elements. -/
def names (p : Progress) : List TagName :=
  p.frames.map Frame.name

end Progress

/-- Whether the innermost open element ends by itself in front of an end tag. -/
def endsBeforeEndTag (open_ : List TagName) (name : TagName) : Bool :=
  match open_ with
  | [] => false
  | innermost :: _ => innermost != name && open_.any fun other => other.sameKind name

/-- Whether the innermost open element ends by itself in front of a start tag. -/
def endsBeforeStartTag (open_ : List TagName) (name : TagName) : Bool :=
  match open_ with
  | [] => false
  | innermost :: _ => innermost.isVoid || (name != "" && !innermost.canHold name)

/-- Whether the innermost open element ends by itself at the end of the text. -/
def endsAtEnd (open_ : List TagName) : Bool :=
  match open_ with
  | [] => false
  | innermost :: _ =>
      innermost.isVoid || !innermost.canHold "" || innermost.endsWithDocument

/-- Whether the innermost open element ends by itself in front of the tag that comes next. -/
def endsByItself (open_ : List TagName) (c : Cursor) : Bool :=
  match c.rest with
  | '<' :: '!' :: _ => false
  | '<' :: '/' :: rest =>
      let name := rest.takeWhile TagName.isNameChar
      (name != [] || rest.isEmpty) && endsBeforeEndTag open_ (TagName.ofText name)
  | '<' :: rest => endsBeforeStartTag open_ (TagName.ofText (rest.takeWhile TagName.isNameChar))
  | _ => false

/-- The letters, digits and semicolon of an entity behind its ampersand. -/
def entityBody (text : List Char) : List Char :=
  let limited (p : Char → Bool) (limit : Nat) (cs : List Char) : List Char :=
    (cs.takeWhile p).take limit
  let isHex (c : Char) : Bool :=
    c.isDigit || ('a' ≤ c && c ≤ 'f') || ('A' ≤ c && c ≤ 'F')
  let body := match text with
    | '#' :: x :: rest =>
        if x = 'x' ∨ x = 'X' then
          match limited isHex 6 rest with
          | [] => []
          | digits => '#' :: x :: digits
        else
          match limited Char.isDigit 5 (x :: rest) with
          | [] => []
          | digits => '#' :: digits
    | _ => limited Char.isAlpha 30 text
  if body = [] then []
  else if (text.drop body.length).head? = some ';' then body ++ [';'] else body

/-- Reads a document type declaration. -/
def readDoctype? (c : Cursor) : Option (Node × Cursor) :=
  let opening := c.past ['<', '!']
  let word := opening.skip isSourceBlank
  let letters := word.rest.take 7
  if letters.map Char.toUpper = "DOCTYPE".toList then
    let body := (word.past letters).skip (· != '>')
    if body.offset ≠ (word.past letters).offset ∧ body.head? = some '>' then
      some (.mk .doctype (c.rangeTo body.tail)
        [markNode c "<!", .leaf (.mark "doctype") (word.rangeOf letters), markNode body ">"],
        body.tail)
    else none
  else none

/-- The text of a script or style sheet: everything up to its end tag. -/
def rawBody (ending : List Char) : List Char → List Char
  | [] => []
  | c :: rest =>
      if ending.isPrefixOf ((c :: rest).map Char.toUpper) then [] else c :: rawBody ending rest

/-- Reads an end tag: its kind, its parts and the cursor behind it. -/
def readEndTag (nameKind : Kind) (c : Cursor) : List Node × Cursor :=
  let word := (c.past ['<', '/']).skip isSourceBlank
  let name := word.while_ TagName.isNameChar
  let named := word.past name
  let (comments, next) := extras named
  let front := [markNode c "</", Node.leaf nameKind (word.rangeOf name)]
  if next.head? = some '>' then (front ++ comments ++ [markNode next ">"], next.tail)
  else (front ++ [missingMark named.offset ">"], named)

/-- The range from the start of the first of some nodes to the end of the last. -/
def spanNodes (c : Cursor) (parts : List Node) : ByteRange :=
  ⟨c.offset, (parts.getLast?.map fun n => n.range.stop).getD c.offset⟩

/-- Reads what is inside a script or style element behind its start tag. -/
def readRaw (kind : Kind) (name : TagName) (c : Cursor) (head : Node) (inner : Cursor) :
    Node × Cursor :=
  let body := rawBody ('<' :: '/' :: name.toList) inner.rest
  let raw := if body = [] then [] else [Node.leaf .rawText (inner.rangeOf body)]
  let last := inner.past body
  if last.rest = [] then (.mk kind (c.rangeTo last) (head :: raw), last)
  else
    let (parts, next) := readEndTag .tagName last
    let ending := Node.mk .endTag (spanNodes last parts) parts
    (.mk kind ⟨c.offset, ending.range.stop⟩ (head :: raw ++ [ending]), next)

/-- Reads a start tag, whose name is not empty, into the progress. -/
def readStartTag (p : Progress) (c : Cursor) (word : Cursor) (text : List Char) :
    Progress × Cursor :=
  let name := TagName.ofText text
  let raw := name == "SCRIPT" || name == "STYLE"
  let named := word.past text
  let (parts, ending, next) := readTagRest (!raw) (named.rest.length + 1) named
  let parts := markNode c "<" :: .leaf .tagName (word.rangeOf text) :: parts
  let range := spanNodes c parts
  match ending with
  | .unfinished => (p.add (.mk .error range parts), next)
  | .selfClosed => (p.add (.mk .element range [.mk .selfClosingTag range parts]), next)
  | _ =>
      let head := Node.mk .startTag range parts
      if raw then
        let kind := if name = "SCRIPT" then Kind.scriptElement else .styleElement
        let (node, last) := readRaw kind name c head next
        (p.add node, last)
      else ({ p with frames := ⟨name, head, []⟩ :: p.frames }, next)

/-- Reads an end tag into the progress: it closes the innermost open element, or is stray. -/
def closeTag (p : Progress) (c : Cursor) (name : TagName) : Progress × Cursor :=
  if p.names.head? = some name then
    let (parts, next) := readEndTag .tagName c
    let ending := Node.mk .endTag (spanNodes c parts) parts
    (p.close ending.range.stop [ending], next)
  else
    let (parts, next) := readEndTag .strayTagName c
    (p.add (.mk .strayEndTag (spanNodes c parts) parts), next)

/-- A mark that fits nowhere. -/
def strayMark (p : Progress) (c : Cursor) (text : String) : Progress × Cursor :=
  (p.add (.mk .error (c.rangeOf text.toList) [markNode c text]), c.past text.toList)

/-- Reads what begins with an angle bracket. -/
def readBracket (p : Progress) (c : Cursor) : Progress × Cursor :=
  match readComment? c with
  | some (comment, next) => (p.add comment, next)
  | none =>
      match c.rest with
      | '<' :: '!' :: _ =>
          match readDoctype? c with
          | some (node, next) => (p.add node, next)
          | none => strayMark p c "<!"
      | '<' :: '/' :: _ =>
          let name := ((c.past ['<', '/']).skip isSourceBlank).while_ TagName.isNameChar
          if name = [] then strayMark p c "</" else closeTag p c (TagName.ofText name)
      | _ =>
          let word := c.tail.skip isSourceBlank
          let name := word.while_ TagName.isNameChar
          if name = [] then strayMark p c "<" else readStartTag p c word name

/-- Reads text up to the next bracket or ampersand, without the blanks at its end. -/
def readText (p : Progress) (c : Cursor) : Progress × Cursor :=
  let run := c.while_ fun d => d != '<' && d != '>' && d != '&'
  let body := trimEnd isSourceBlank run
  (p.add (.leaf .text (c.rangeOf body)), c.past run)

/-- Reads an entity; an ampersand that begins none is an error. -/
def readEntity (p : Progress) (c : Cursor) : Progress × Cursor :=
  let body := entityBody c.tail.rest
  if body = [] then (p.add (.leaf .error (c.rangeTo c.tail)), c.tail)
  else (p.add (.leaf .entity (c.rangeOf ('&' :: body))), c.past ('&' :: body))

/-- Reads content up to the end of the text and closes all elements there. -/
def readContent : Nat → Progress → Cursor → List Node
  | 0, p, _ => p.top.reverse
  | fuel + 1, p, c =>
      let c := c.skip isSourceBlank
      match c.rest with
      | [] =>
          match p.frames with
          | [] => p.top.reverse
          | f :: _ =>
              let stop := if endsAtEnd p.names then c.offset else f.contentEnd
              readContent fuel (p.close stop []) c
      | '<' :: _ =>
          if (readComment? c).isNone && endsByItself p.names c then
            readContent fuel (p.close c.offset []) c
          else
            let (next, after) := readBracket p c
            readContent fuel next after
      | '>' :: _ =>
          let (next, after) := strayMark p c ">"
          readContent fuel next after
      | '&' :: _ =>
          let (next, after) := readEntity p c
          readContent fuel next after
      | _ :: _ =>
          let (next, after) := readText p c
          readContent fuel next after

/-- Reads a text into its document node, which starts where its first node does. -/
def readNode (text : List Char) : Node :=
  let nodes := readContent (2 * text.length + 2) .start (.start text)
  let stop := byteSize text
  .mk .document ⟨(nodes.head?.map fun n => n.range.start).getD stop, stop⟩ nodes

end ComponentAtlas.Markup
