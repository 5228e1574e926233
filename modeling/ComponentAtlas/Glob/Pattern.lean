/-!
# Name patterns

A pattern is a list of parts: literal characters, wildcards, character classes and groups of
alternatives. `Pattern.read` reads its text or says why there is none; the causes are those that a
user can make.
-/

namespace ComponentAtlas.Glob

/-- A part of a pattern. The three `crossing` parts come from a double star between slashes. -/
inductive Part where
  | literal (c : Char)
  | anyByte
  | anyBytes
  | leadingCrossing
  | trailingCrossing
  | innerCrossing
  | oneOf (negated : Bool) (ranges : List (Char × Char))
  | alternatives (branches : List (List Part))
  deriving Repr, Inhabited

/-- A pattern is a list of parts. -/
abbrev Pattern := List Part

/-- Why a text is no pattern. -/
inductive PatternError where
  | unclosedClass
  | invalidRange (low high : Char)
  | unopenedGroup
  | unclosedGroup
  | danglingEscape
  deriving DecidableEq, Repr

/-- The wording of a pattern error. -/
def PatternError.message : PatternError → String
  | .unclosedClass => "unclosed character class; missing ']'"
  | .invalidRange low high =>
      "invalid range; '" ++ low.toString ++ "' > '" ++ high.toString ++ "'"
  | .unopenedGroup =>
      "unopened alternate group; missing '\x7b' (maybe escape '\x7d' with '[\x7d]'?)"
  | .unclosedGroup =>
      "unclosed alternate group; missing '\x7d' (maybe escape '\x7b' with '[\x7b]'?)"
  | .danglingEscape => "dangling '\\'"

/-- An open group: its finished branches, the branch being read, both in reverse. -/
structure Group where
  done : List Pattern
  current : Pattern

/-- The state of reading: the parts at the top in reverse, the open groups, innermost first, and
the character read last. -/
structure Reading where
  top : Pattern
  groups : List Group
  last : Option Char

namespace Reading

/-- Nothing read yet. -/
def start : Reading := ⟨[], [], none⟩

/-- The parts of the innermost open branch, in reverse. -/
def open_ (r : Reading) : Pattern :=
  match r.groups with
  | [] => r.top
  | g :: _ => g.current

/-- The state with other parts in the innermost open branch. -/
def withOpen (r : Reading) (parts : Pattern) : Reading :=
  match r.groups with
  | [] => { r with top := parts }
  | g :: outer => { r with groups := { g with current := parts } :: outer }

/-- The state with one more part. -/
def push (r : Reading) (part : Part) : Reading :=
  r.withOpen (part :: r.open_)

/-- The state behind a character. -/
def after (r : Reading) (c : Char) : Reading :=
  { r with last := some c }

end Reading

/-- The ranges of a class: a dash between two characters makes a range of them. The flags say
that nothing was read yet and that a dash is waiting for its second character. -/
def readRanges (first waiting : Bool) (ranges : List (Char × Char)) :
    List Char → Except PatternError (List (Char × Char) × List Char)
  | [] => .error .unclosedClass
  | ']' :: rest =>
      if first then readRanges false false ((']', ']') :: ranges) rest
      else .ok (if waiting then ('-', '-') :: ranges else ranges, rest)
  | '-' :: rest =>
      if first then readRanges false false (('-', '-') :: ranges) rest
      else if waiting then
        match ranges with
        | (low, _) :: more =>
            if '-' < low then .error (.invalidRange low '-')
            else readRanges false false ((low, '-') :: more) rest
        | [] => readRanges false false (('-', '-') :: ranges) rest
      else readRanges false true ranges rest
  | c :: rest =>
      if waiting then
        match ranges with
        | (low, _) :: more =>
            if c < low then .error (.invalidRange low c)
            else readRanges false false ((low, c) :: more) rest
        | [] => readRanges false false ((c, c) :: ranges) rest
      else readRanges false false ((c, c) :: ranges) rest

/-- Reads a class behind its bracket. -/
def readClass (text : List Char) : Except PatternError (Part × List Char) :=
  let (negated, body) : Bool × List Char := match text with
    | '!' :: rest => (true, rest)
    | '^' :: rest => (true, rest)
    | rest => (false, rest)
  (readRanges true false [] body).map fun (ranges, rest) => (.oneOf negated ranges.reverse, rest)

/-- Reads a double star, given the characters behind it: the new state and what is left. Only
at the start of a branch or behind a slash, and in front of a slash or the end of a branch, does
it stand for any number of path steps. -/
def readDoubleStar (r : Reading) (rest : List Char) : Reading × List Char :=
  let plain := ((r.push .anyBytes).push .anyBytes).after '*'
  let inGroup := !r.groups.isEmpty
  if r.open_.isEmpty then
    match rest with
    | [] => ((r.push .leadingCrossing).after '*', [])
    | '/' :: more => ((r.push .leadingCrossing).after '/', more)
    | _ => (plain, rest)
  else if r.last ≠ some '/' ∧ ¬ (inGroup = true ∧ (r.last = some ',' ∨ r.last = some '\x7b')) then
    (plain, rest)
  else
    let replaced (part : Part) : Reading :=
      match r.open_ with
      | .leadingCrossing :: _ => r
      | .trailingCrossing :: _ => r
      | parts => r.withOpen (part :: parts.tail)
    match rest with
    | [] => ((replaced .trailingCrossing).after '*', [])
    | '/' :: more => ((replaced .innerCrossing).after '/', more)
    | c :: _ =>
        if inGroup = true ∧ (c = ',' ∨ c = '\x7d') then
          ((replaced .trailingCrossing).after '*', rest)
        else (plain, rest)

/-- Reads a pattern from a state on. -/
def readFrom : Nat → Reading → List Char → Except PatternError Pattern
  | 0, _, _ => .error .danglingEscape
  | _ + 1, r, [] => if r.groups.isEmpty then .ok r.top.reverse else .error .unclosedGroup
  | fuel + 1, r, c :: rest =>
      match c with
      | '?' => readFrom fuel ((r.push .anyByte).after c) rest
      | '*' =>
          match rest with
          | '*' :: more =>
              let (next, left) := readDoubleStar r more
              readFrom fuel next left
          | _ => readFrom fuel ((r.push .anyBytes).after c) rest
      | '[' => do
          let (part, left) ← readClass rest
          readFrom fuel ((r.push part).after ']') left
      | '\x7b' =>
          readFrom fuel ({ r with groups := ⟨[], []⟩ :: r.groups }.after c) rest
      | '\x7d' =>
          match r.groups with
          | [] => .error .unopenedGroup
          | g :: outer =>
              let branches := (g.current.reverse :: g.done).reverse
              let closed := { r with groups := outer }.push (.alternatives branches)
              readFrom fuel (closed.after c) rest
      | ',' =>
          match r.groups with
          | [] => readFrom fuel ((r.push (.literal c)).after c) rest
          | g :: outer =>
              let next := { r with groups := ⟨g.current.reverse :: g.done, []⟩ :: outer }
              readFrom fuel (next.after c) rest
      | '\\' =>
          match rest with
          | [] => .error .danglingEscape
          | d :: more => readFrom fuel ((r.push (.literal d)).after d) more
      | _ => readFrom fuel ((r.push (.literal c)).after c) rest

/-- Reads the text of a pattern. -/
def Pattern.read (text : String) : Except PatternError Pattern :=
  readFrom (text.toList.length + 1) .start text.toList

end ComponentAtlas.Glob
