import ComponentAtlas.Uri.Percent
import ComponentAtlas.Text.Extent
import ComponentAtlas.Path.Basic

/-!
# Resource identifiers

An absolute URI is read into its scheme, its authority and its path. Blanks around it and line
breaks inside it do not count, dot segments are resolved, and for the web schemes and `file` a
backslash is a slash. `toPath?` is the file path of a URI without a foreign host, and `ofPath?`
the URI of an absolute path.
-/

namespace ComponentAtlas

open ComponentAtlas.Text

namespace Uri

/-- The three ways in which schemes treat what follows their colon. -/
inductive SchemeKind where
  | file
  | web
  | other
  deriving DecidableEq, Repr

/-- The kind of a scheme. -/
def SchemeKind.ofScheme (scheme : String) : SchemeKind :=
  if scheme = "file" then .file
  else if ["http", "https", "ws", "wss", "ftp"].contains scheme then .web
  else .other

/-- The path of a URI: an opaque text, or coded segments each with a slash in front. -/
inductive UriPath where
  | plainText (text : List Char)
  | segments (items : List (List Char))
  deriving DecidableEq, Repr

/-- The text of a path. -/
def UriPath.text : UriPath → List Char
  | .plainText s => s
  | .segments items => items.flatMap fun item => '/' :: item

/-- Characters that belong to no URI at its ends. -/
def isOuterBlank (c : Char) : Bool := c.toNat ≤ 0x20

/-- Characters that are dropped from a URI wherever they are. -/
def isInnerBreak (c : Char) : Bool := c == '\t' || c == '\n' || c == '\r'

/-- Splits off the scheme, in small letters. -/
def splitScheme? (text : List Char) : Option (String × List Char) :=
  let scheme := text.takeWhile fun c => c.isAlphanum || c == '+' || c == '-' || c == '.'
  match scheme, text.drop scheme.length with
  | first :: _, ':' :: rest =>
      if first.isAlpha then some (String.ofList (scheme.map Char.toLower), rest) else none
  | _, _ => none

/-- A slash, and for some schemes a backslash. -/
def isSlash (kind : SchemeKind) (c : Char) : Bool :=
  c == '/' || (kind != .other && c == '\\')

/-- What ends a path. -/
def endsPath (c : Char) : Bool := c == '?' || c == '#'

/-- A letter and a colon or bar. -/
def isDriveLetter : List Char → Bool
  | [letter, mark] => letter.isAlpha && (mark == ':' || mark == '|')
  | _ => false

/-- A segment that names the segment before it. -/
def isDoubleDot (segment : List Char) : Bool :=
  ["..", ".%2e", "%2e.", "%2e%2e"].contains (String.ofList (segment.map Char.toLower))

/-- A segment that names nothing. -/
def isSingleDot (segment : List Char) : Bool :=
  [".", "%2e"].contains (String.ofList (segment.map Char.toLower))

/-- Splits a text at its slashes. -/
def splitSlashes (kind : SchemeKind) : List Char → List (List Char)
  | [] => [[]]
  | c :: rest =>
      if isSlash kind c then [] :: splitSlashes kind rest
      else match splitSlashes kind rest with
        | [] => [[c]]
        | piece :: pieces => (c :: piece) :: pieces

/-- Segments without the last one; the drive letter of a file path stays. -/
def popSegment (kind : SchemeKind) (done : List (List Char)) : List (List Char) :=
  match kind, done with
  | .file, [only] => if isDriveLetter only then [only] else []
  | _, _ => done.dropLast

/-- The segments that a list of raw segments stands for. -/
def resolveSegments (kind : SchemeKind) (done : List (List Char)) :
    List (List Char) → List (List Char)
  | [] => done
  | raw :: rest =>
      let segment := percentEncode codedInPath raw
      let next :=
        if isDoubleDot segment then
          popSegment kind done ++ (if rest = [] then [[]] else [])
        else if isSingleDot segment then done ++ (if rest = [] then [[]] else [])
        else
          match kind, done, segment with
          | .file, [], [letter, mark] =>
              if isDriveLetter [letter, mark] then [[letter, ':']] else [segment]
          | _, _, _ => done ++ [segment]
      resolveSegments kind next rest

/-- Reads a path that starts with a slash or is empty. -/
def readSegments (kind : SchemeKind) (text : List Char) : List (List Char) :=
  let body := match text with
    | c :: rest => if isSlash kind c then rest else c :: rest
    | [] => []
  let items := resolveSegments kind [] (splitSlashes kind body)
  match kind with
  | .file =>
      match items.dropWhile (· = []) with
      | [] => [[]]
      | kept => kept
  | _ => items

end Uri

/-- An absolute URI. The authority is the text behind `//`, and the host its middle part. -/
structure Uri where
  scheme : String
  authority : Option (List Char)
  host : List Char
  path : Uri.UriPath
  tail : List Char
  deriving DecidableEq, Repr

namespace Uri

/-- Characters that no host name has. -/
def isHostBreaker (c : Char) : Bool :=
  c.toNat ≤ 0x20 || c.toNat == 0x7F ||
    ['#', '/', ':', '<', '>', '?', '@', '[', '\\', ']', '^', '|', '%'].contains c

/-- Reads a number of an address with four parts. -/
def hostNumber? (text : List Char) : Option Nat :=
  match text with
  | [] => none
  | '0' :: x :: rest =>
      if x = 'x' ∨ x = 'X' then
        rest.foldlM (fun acc c => (hexValue? c).map (acc * 16 + ·)) 0
      else
        (x :: rest).foldlM (fun acc c =>
          if '0' ≤ c ∧ c ≤ '7' then some (acc * 8 + (c.toNat - '0'.toNat)) else none) 0
  | _ =>
      text.foldlM (fun acc c =>
        if c.isDigit then some (acc * 10 + (c.toNat - '0'.toNat)) else none) 0

/-- Whether a host that ends in a number is an address. -/
def isAddress (labels : List (List Char)) : Bool :=
  match labels.mapM hostNumber? with
  | none => false
  | some parts =>
      parts.length ≤ 4 && (parts.dropLast.all (· ≤ 255)) &&
        (parts.getLast?.any (· < Nat.pow 256 (5 - parts.length)))

/-- Reads a host name; it is decoded and written in small letters. -/
def readHost? (kind : SchemeKind) (text : List Char) : Option (List Char) :=
  if text.head? = some '[' then
    if text.getLast? = some ']' ∧
        (text.drop 1).dropLast.all (fun c => (hexValue? c).isSome || c == ':' || c == '.') = true ∧
        text.contains ':' = true then some text else none
  else if kind = .other then
    if text.any (fun c => isHostBreaker c && c != '%') then none
    else some (percentEncode (fun _ => false) text)
  else
    let name := (decodeUtf8 (percentDecode text)).map Char.toLower
    if name.any isHostBreaker then none
    else
      let labels := splitAt '.' name
      let labels := if labels.getLast? = some [] then labels.dropLast else labels
      match labels.getLast? with
      | none => none
      | some last =>
          if (last ≠ [] ∧ last.all Char.isDigit = true) ∨
              (['0', 'x'] = last.take 2 ∧ (hostNumber? last).isSome = true) then
            if isAddress labels then some name else none
          else some name

/-- Splits an authority into user, host and port, each with its mark. -/
def splitAuthority (text : List Char) : List Char × List Char × List Char :=
  let host := (text.reverse.takeWhile (· != '@')).reverse
  let user := text.take (text.length - host.length)
  if host.head? = some '[' then
    let inner := host.takeWhile (· != ']')
    (user, host.take (inner.length + 1), host.drop (inner.length + 1))
  else
    let name := host.takeWhile (· != ':')
    (user, name, host.drop name.length)

/-- The standard port of a scheme. -/
def standardPort (scheme : String) : Option Nat :=
  if scheme = "http" ∨ scheme = "ws" then some 80
  else if scheme = "https" ∨ scheme = "wss" then some 443
  else if scheme = "ftp" then some 21
  else none

/-- Reads a port with its colon; the standard port and an empty one are not written. -/
def readPort? (scheme : String) : List Char → Option (List Char)
  | [] => some []
  | ':' :: digits => do
      let n ← digits.foldlM (fun acc c =>
        if c.isDigit then some (acc * 10 + (c.toNat - '0'.toNat)) else none) 0
      if 65535 < n then none
      else if digits = [] ∨ standardPort scheme = some n then some []
      else some (':' :: (toString n).toList)
  | _ => none

/-- The query and fragment of a URI, coded. -/
def readTail (text : List Char) : List Char :=
  percentEncode (fun c => [' ', '"', '<', '>'].contains c) text

/-- Reads the path and what follows it, when the text starts with a slash or is empty. -/
def readPath (kind : SchemeKind) (text : List Char) : UriPath × List Char :=
  let body := text.takeWhile fun c => !endsPath c
  let tail := text.drop body.length
  if kind = .other ∧ body = [] then (.segments [], readTail tail)
  else (.segments (readSegments kind body), readTail tail)

/-- Reads what follows the two slashes of an authority. -/
def readAuthority? (scheme : String) (kind : SchemeKind) (text : List Char) : Option Uri := do
  let authority := text.takeWhile fun c => !(isSlash kind c || endsPath c)
  let rest := text.drop authority.length
  let (user, name, port) := splitAuthority authority
  if name = [] then
    if kind = .web ∨ user ≠ [] ∨ port ≠ [] then none
    else
      let (path, tail) := readPath kind rest
      return ⟨scheme, some [], [], path, tail⟩
  else
    let host ← readHost? kind name
    let port ← readPort? scheme port
    let (path, tail) := readPath kind rest
    return ⟨scheme, some (user ++ host ++ port), host, path, tail⟩

/-- Reads what follows the colon of the scheme `file`. -/
def readFile? (text : List Char) : Option Uri :=
  let plain (rest : List Char) : Uri :=
    let (path, tail) := readPath .file rest
    ⟨"file", some [], [], path, tail⟩
  match text with
  | a :: b :: rest =>
      if isSlash .file a && isSlash .file b then
        let name := rest.takeWhile fun c => !(isSlash .file c || endsPath c)
        if name = [] ∨ isDriveLetter name = true then some (plain rest)
        else do
          let host ← readHost? .file name
          if host = "localhost".toList then some (plain (rest.drop name.length))
          else
            let (path, tail) := readPath .file (rest.drop name.length)
            let driven := match path with
              | .segments (first :: _) => isDriveLetter first
              | _ => false
            some (if driven then ⟨"file", some [], [], path, tail⟩
              else ⟨"file", some host, host, path, tail⟩)
      else some (plain text)
  | _ => some (plain text)

/-- Reads an absolute URI. -/
def read? (text : String) : Option Uri := do
  let trimmed := trim isOuterBlank text.toList
  let (scheme, rest) ← splitScheme? (trimmed.filter fun c => !isInnerBreak c)
  match SchemeKind.ofScheme scheme with
  | .file => readFile? rest
  | .web => readAuthority? scheme .web (rest.dropWhile (isSlash .web))
  | .other =>
      match rest with
      | '/' :: '/' :: rest => readAuthority? scheme .other rest
      | '/' :: _ =>
          let (path, tail) := readPath .other rest
          return ⟨scheme, none, [], path, tail⟩
      | _ =>
          let body := rest.takeWhile fun c => !endsPath c
          return ⟨scheme, none, [], .plainText (percentEncode (fun _ => false) body),
            readTail (rest.drop body.length)⟩

/-- The normal spelling of a URI. -/
def render (u : Uri) : String :=
  let authority := match u.authority with
    | none => []
    | some a => '/' :: '/' :: a
  String.ofList (u.scheme.toList ++ ':' :: authority ++ u.path.text ++ u.tail)

/-- A folder mark behind a path that ends in a drive letter. -/
def closeDrive (bytes : List UInt8) : List UInt8 :=
  match bytes.reverse with
  | mark :: letter :: _ :: _ =>
      if (Char.ofNat letter.toNat).isAlpha ∧ (mark = 58 ∨ mark = 124) then bytes ++ [47] else bytes
  | _ => bytes

/-- The file path of a URI: there is one unless the host is foreign or the path opaque. -/
def toPath? (u : Uri) : Option Path :=
  match u.path with
  | .plainText _ => none
  | .segments [] => none
  | .segments items =>
      if u.host = [] ∨ u.host = "localhost".toList then
        let bytes := items.flatMap fun item => 47 :: percentDecode item
        some ⟨String.ofList (decodeUtf8 (closeDrive bytes))⟩
      else none

/-- The path that an identifier of a document stands for: the file path of a `file` URI, and the
text itself of anything else. -/
def documentPath (text : String) : String :=
  match read? text with
  | none => text
  | some u =>
      if u.scheme = "file" then
        match u.toPath? with
        | some p => p.text
        | none => String.ofList u.path.text
      else text

/-- The URI of an absolute path. -/
def ofPath? (p : Path) : Option String :=
  if p.isAbsolute then
    let steps := (p.components.drop 1).flatMap fun c =>
      '/' :: percentEncode codedInStep c.text.toList
    some ("file://" ++ String.ofList (if steps = [] then ['/'] else steps))
  else none

end Uri

end ComponentAtlas
