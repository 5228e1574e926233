import ComponentAtlas.Text.Cursor

/-!
# Patterns

A pattern is tried on the characters that come next. It may be read in several ways, and these
have an order: a repetition is read as often as it can be before it is read less often. The first
way is the match. A text is searched from left to right, and the search goes on behind each match.
-/

namespace ComponentAtlas.Text

/-- A pattern of characters. The characters that a group has read are kept. -/
inductive Pattern where
  | one (test : Char → Bool)
  | seq (first second : Pattern)
  | maybe (inner : Pattern)
  | many (inner : Pattern)
  | group (inner : Pattern)

/-- The characters of a group with their range. -/
abbrev Group := ByteRange × List Char

/-- How far a pattern has been read: its groups, in the order in which they end, and the cursor
behind it. -/
structure Reading where
  groups : List Group
  next : Cursor
  deriving Repr, Inhabited

namespace Reading

/-- Whether a reading is behind another one. -/
def follows (s r : Reading) : Bool :=
  s.next.rest.length < r.next.rest.length

/-- The group of the characters between two readings. -/
def groupTo (r s : Reading) : Group :=
  (r.next.rangeTo s.next, r.next.rest.take (r.next.rest.length - s.next.rest.length))

end Reading

namespace Pattern

/-- The ways to repeat a step at most a number of times, the longest first. -/
def repeated (step : Reading → List Reading) : Nat → Reading → List Reading
  | 0, r => [r]
  | n + 1, r => ((step r).filter fun s => s.follows r).flatMap (repeated step n) ++ [r]

/-- The ways to read a pattern on, the preferred ones first. -/
def run : Pattern → Reading → List Reading
  | one test, r =>
      match r.next.rest with
      | [] => []
      | c :: _ => if test c then [⟨r.groups, r.next.tail⟩] else []
  | seq first second, r => (first.run r).flatMap second.run
  | maybe inner, r => inner.run r ++ [r]
  | many inner, r => repeated inner.run r.next.rest.length r
  | group inner, r =>
      (inner.run r).map fun s => ⟨s.groups ++ [r.groupTo s], s.next⟩

/-- The match of a pattern with the characters that come next. -/
def matchAt? (p : Pattern) (c : Cursor) : Option Reading :=
  (p.run ⟨[], c⟩).head?

/-- The matches of a pattern in the rest of a text; those in front of the offset `free` would begin
inside the match before. -/
def search (p : Pattern) (free offset : Nat) : List Char → List Reading
  | [] => if offset < free then [] else (p.matchAt? ⟨[], offset⟩).toList
  | c :: rest =>
      let found := if offset < free then none else p.matchAt? ⟨c :: rest, offset⟩
      found.toList ++
        p.search ((found.map fun m => m.next.offset).getD free) (offset + c.utf8Size) rest

/-- The matches of a pattern in a text. -/
def matchesIn (p : Pattern) (text : List Char) : List Reading :=
  p.search 0 0 text

/-- A given character. -/
def char (c : Char) : Pattern := one (· == c)

/-- One of some characters. -/
def oneOf (cs : List Char) : Pattern := one fun c => cs.contains c

/-- Patterns one after the other, with a last one. -/
def inOrder (parts : List Pattern) (last : Pattern) : Pattern :=
  parts.foldr seq last

end Pattern

end ComponentAtlas.Text
