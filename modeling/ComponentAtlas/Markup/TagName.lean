import ComponentAtlas.Text.Extent

/-!
# Names of tags

Names of tags are compared in capital letters. Some elements never have an end tag, and some end
by themselves where another element begins. Names that are not known count as one kind of tag.
-/

namespace ComponentAtlas.Markup

/-- A tag name in capital letters. -/
abbrev TagName := String

namespace TagName

/-- The names that are known, apart from those without an end tag. -/
def closable : List TagName :=
  ["A", "ABBR", "ADDRESS", "ARTICLE", "ASIDE", "AUDIO", "B", "BDI", "BDO", "BLOCKQUOTE", "BODY",
    "BUTTON", "CANVAS", "CAPTION", "CITE", "CODE", "COLGROUP", "DATA", "DATALIST", "DD", "DEL",
    "DETAILS", "DFN", "DIALOG", "DIV", "DL", "DT", "EM", "FIELDSET", "FIGCAPTION", "FIGURE",
    "FOOTER", "FORM", "H1", "H2", "H3", "H4", "H5", "H6", "HEAD", "HEADER", "HGROUP", "HTML",
    "I", "IFRAME", "INS", "KBD", "LABEL", "LEGEND", "LI", "MAIN", "MAP", "MARK", "MATH", "MENU",
    "METER", "NAV", "NOSCRIPT", "OBJECT", "OL", "OPTGROUP", "OPTION", "OUTPUT", "P", "PICTURE",
    "PRE", "PROGRESS", "Q", "RB", "RP", "RT", "RTC", "RUBY", "S", "SAMP", "SCRIPT", "SECTION",
    "SELECT", "SLOT", "SMALL", "SPAN", "STRONG", "STYLE", "SUB", "SUMMARY", "SUP", "SVG",
    "TABLE", "TBODY", "TD", "TEMPLATE", "TEXTAREA", "TFOOT", "TH", "THEAD", "TIME", "TITLE",
    "TR", "U", "UL", "VAR", "VIDEO"]

/-- The names of elements that never have an end tag. -/
def voids : List TagName :=
  ["AREA", "BASE", "BASEFONT", "BGSOUND", "BR", "COL", "COMMAND", "EMBED", "FRAME", "HR",
    "IMAGE", "IMG", "INPUT", "ISINDEX", "KEYGEN", "LINK", "MENUITEM", "META", "NEXTID", "PARAM",
    "SOURCE", "TRACK", "WBR"]

/-- The elements before which a paragraph ends. -/
def paragraphEnders : List TagName :=
  ["ADDRESS", "ARTICLE", "ASIDE", "BLOCKQUOTE", "DETAILS", "DIV", "DL", "FIELDSET",
    "FIGCAPTION", "FIGURE", "FOOTER", "FORM", "H1", "H2", "H3", "H4", "H5", "H6", "HEADER", "HR",
    "MAIN", "NAV", "OL", "P", "PRE", "SECTION"]

/-- The characters of tag names. -/
def isNameChar (c : Char) : Bool :=
  c.isAlphanum || c == '-' || c == ':'

/-- The name of a tag as it is compared. -/
def ofText (text : List Char) : TagName :=
  String.ofList (text.map Char.toUpper)

/-- Whether an element never has an end tag. -/
def isVoid (name : TagName) : Bool :=
  voids.contains name

/-- Whether a name is known. -/
def isKnown (name : TagName) : Bool :=
  closable.contains name || voids.contains name

/-- The parts of a ruby annotation, each of which ends before the others. -/
def rubyParts : List TagName := ["RB", "RT", "RP"]

/-- The parts of a table before which a cell ends. -/
def cellEnders : List TagName := ["TD", "TH", "TR"]

/-- Whether two names are of one kind: equal, or both unknown. -/
def sameKind (a b : TagName) : Bool :=
  a == b || (!isKnown a && !isKnown b)

/-- Whether an element may hold another one; otherwise it ends in front of it. -/
def canHold (outer inner : TagName) : Bool :=
  if outer = "LI" then inner != "LI"
  else if outer = "DT" ∨ outer = "DD" then inner != "DT" && inner != "DD"
  else if outer = "P" then !paragraphEnders.contains inner
  else if outer = "COLGROUP" then inner == "COL"
  else if rubyParts.contains outer then !rubyParts.contains inner
  else if outer = "OPTGROUP" then inner != "OPTGROUP"
  else if outer = "TR" then inner != "TR"
  else if outer = "TD" ∨ outer = "TH" then !cellEnders.contains inner
  else true

/-- The elements that end by themselves at the end of a document. -/
def endsWithDocument (name : TagName) : Bool :=
  name == "HTML" || name == "HEAD" || name == "BODY"

end TagName

end ComponentAtlas.Markup
