import ComponentAtlas.Glob.Pattern
import ComponentAtlas.Uri.Percent

/-!
# Matching names

A pattern is matched byte by byte. `Part.rests` lists what can be left of a name behind a part,
and a pattern matches a name when nothing can be left behind all its parts.
-/

namespace ComponentAtlas.Glob

open ComponentAtlas.Uri

/-- The byte of a slash. -/
def slash : UInt8 := 47

/-- All ends of a list, from the list itself to the empty one. -/
def tails : List UInt8 → List (List UInt8)
  | [] => [[]]
  | b :: rest => (b :: rest) :: tails rest

/-- The ends of a list that come right behind one of its slashes. -/
def behindSlashes : List UInt8 → List (List UInt8)
  | [] => []
  | b :: rest => if b = slash then rest :: behindSlashes rest else behindSlashes rest

/-- The ranges of bytes of a range of characters: its two ends are taken byte by byte, and the
range runs from the last byte of the one to the first byte of the other. -/
def byteRanges (range : Char × Char) : List (UInt8 × UInt8) :=
  let low := bytesOf [range.1]
  let high := bytesOf [range.2]
  if range.1 = range.2 then low.map fun b => (b, b)
  else
    low.dropLast.map (fun b => (b, b)) ++
      (match low.getLast?, high.head? with
        | some a, some b => [(a, b)]
        | _, _ => []) ++
      high.tail.map fun b => (b, b)

/-- Whether a byte is in the class of some ranges of characters. -/
def inClass (ranges : List (Char × Char)) (b : UInt8) : Bool :=
  ranges.any fun range => (byteRanges range).any fun (low, high) => low ≤ b && b ≤ high

/-- The rest of a name behind given bytes. -/
def dropBytesOf : List UInt8 → List UInt8 → List (List UInt8)
  | [], name => [name]
  | _ :: _, [] => []
  | a :: front, b :: name => if a = b then dropBytesOf front name else []

/-- The lists without those whose length was there before. -/
def distinctLengths (lists : List (List UInt8)) : List (List UInt8) :=
  lists.foldl (fun kept list =>
    if kept.any (fun other => other.length == list.length) then kept else kept ++ [list]) []

mutual

/-- What can be left of a name behind a part. -/
def Part.rests : Part → List UInt8 → List (List UInt8)
  | .literal c, name => dropBytesOf (bytesOf [c]) name
  | .anyByte, name => match name with
      | [] => []
      | _ :: rest => [rest]
  | .anyBytes, name => tails name
  | .leadingCrossing, name => name :: behindSlashes name
  | .trailingCrossing, name => match name with
      | b :: rest => if b = slash then tails rest else []
      | [] => []
  | .innerCrossing, name => match name with
      | b :: rest => if b = slash then rest :: behindSlashes rest else []
      | [] => []
  | .oneOf negated ranges, name => match name with
      | b :: rest => if inClass ranges b != negated then [rest] else []
      | [] => []
  | .alternatives branches, name =>
      if allVoid branches then [name] else distinctLengths (branchRests branches name)

/-- What can be left of a name behind the parts of a list. -/
def partsRests : List Part → List UInt8 → List (List UInt8)
  | [], name => [name]
  | part :: parts, name => distinctLengths (((part.rests name).map (partsRests parts)).flatten)

/-- What can be left of a name behind one of some branches; a branch without content is no
branch. -/
def branchRests : List (List Part) → List UInt8 → List (List UInt8)
  | [], _ => []
  | branch :: branches, name =>
      (if voidParts branch then [] else partsRests branch name) ++ branchRests branches name

/-- Whether a part has no content: a group of branches without content. -/
def Part.isVoid : Part → Bool
  | .alternatives branches => allVoid branches
  | _ => false

/-- Whether all parts of a list have no content. -/
def voidParts : List Part → Bool
  | [] => true
  | part :: parts => part.isVoid && voidParts parts

/-- Whether all branches have no content. -/
def allVoid : List (List Part) → Bool
  | [] => true
  | branch :: branches => voidParts branch && allVoid branches

end

/-- Whether a pattern matches a whole name; a double star alone matches every name. -/
def Pattern.matchesName (pattern : Pattern) (name : String) : Bool :=
  match pattern with
  | [.leadingCrossing] => true
  | parts => (partsRests parts (bytesOf name.toList)).any (·.isEmpty)

end ComponentAtlas.Glob
