import ComponentAtlas.Text.Extent

/-!
# Paths

A path keeps its spelling; its meaning is its list of components. Repeated slashes, inner dots
and a slash at the end do not count. Two paths name the same place when their components agree,
and paths are ordered by their components.
-/

namespace ComponentAtlas

open ComponentAtlas.Text

/-- One step of a path: the root, the current folder in front, the parent folder, or a name. -/
inductive Step where
  | root
  | here
  | parent
  | name (text : String)
  deriving DecidableEq, Repr

namespace Step

/-- The spelling of a component. -/
def text : Step → String
  | .root => "/"
  | .here => "."
  | .parent => ".."
  | .name s => s

/-- The place of a kind of component in the order of components. -/
def rank : Step → Nat
  | .root => 0
  | .here => 1
  | .parent => 2
  | .name _ => 3

/-- Whether a component comes before another one; names are ordered by their characters. -/
def before : Step → Step → Bool
  | .name a, .name b => a < b
  | a, b => a.rank < b.rank

/-- The component of a piece between two slashes; an empty piece and a dot are none. -/
def ofPiece? (piece : List Char) : Option Step :=
  if piece = [] ∨ piece = ['.'] then none
  else if piece = ['.', '.'] then some .parent
  else some (.name (String.ofList piece))

end Step

/-- A path with its spelling. -/
structure Path where
  text : String
  deriving DecidableEq, Repr, Inhabited

namespace Path

/-- The components of a spelling. -/
def componentsOf (spelling : List Char) : List Step :=
  match splitAt '/' spelling with
  | [] => []
  | first :: rest =>
      let named := rest.filterMap Step.ofPiece?
      if first = [] then (if rest = [] then [] else .root :: named)
      else if first = ['.'] then .here :: named
      else match Step.ofPiece? first with
        | some c => c :: named
        | none => named

/-- The components of a path. -/
def components (p : Path) : List Step :=
  componentsOf p.text.toList

/-- Whether two paths name the same place. -/
def same (p q : Path) : Bool :=
  p.components == q.components

/-- Lexicographic order of component lists. -/
def listBefore : List Step → List Step → Bool
  | [], [] => false
  | [], _ :: _ => true
  | _ :: _, [] => false
  | a :: as, b :: bs => if a = b then listBefore as bs else a.before b

/-- Whether a path comes before another one. -/
def before (p q : Path) : Bool :=
  listBefore p.components q.components

/-- A path that starts at the root. -/
def isAbsolute (p : Path) : Bool :=
  p.text.toList.head? == some '/'

/-- The part of a spelling in front of its first piece: the root, a leading dot, or nothing. -/
def splitHead : List Char → List Char × List Char
  | '/' :: rest => (['/'], rest)
  | ['.'] => (['.'], [])
  | '.' :: '/' :: rest => (['.'], '/' :: rest)
  | spelling => ([], spelling)

/-- The pieces without those at the end that name nothing. -/
def trimPieces : List (List Char) → List (List Char)
  | [] => []
  | piece :: rest =>
      match trimPieces rest with
      | [] => if (Step.ofPiece? piece).isNone then [] else [piece]
      | kept => piece :: kept

/-- The folder of a path, as spelled there; the root and the empty path have none. -/
def parent? (p : Path) : Option Path :=
  let (head, body) := splitHead p.text.toList
  match trimPieces (splitAt '/' body) with
  | [] => if head = ['.'] then some ⟨""⟩ else none
  | piece :: rest =>
      let kept := trimPieces (piece :: rest).dropLast
      some ⟨String.ofList (head ++ joinWith ['/'] kept)⟩

/-- The last component, when it is a name. -/
def fileName? (p : Path) : Option String :=
  match p.components.getLast? with
  | some (.name s) => some s
  | _ => none

/-- The parts of a file name around its last dot; a dot in front belongs to the name. -/
def splitName (name : List Char) : List Char × Option (List Char) :=
  let ending := (name.reverse.takeWhile (· != '.')).reverse
  let front := name.take (name.length - ending.length)
  if front.length ≤ 1 then (name, none) else (front.dropLast, some ending)

/-- The file name without its extension. -/
def stem? (p : Path) : Option String :=
  p.fileName?.map fun name => String.ofList (splitName name.toList).1

/-- The part of the file name behind its last dot. -/
def extension? (p : Path) : Option String :=
  p.fileName?.bind fun name => (splitName name.toList).2.map String.ofList

/-- A path inside a folder; an absolute path stays as it is. -/
def join (p : Path) (inner : String) : Path :=
  if inner.toList.head? = some '/' then ⟨inner⟩
  else if p.text.isEmpty ∨ p.text.toList.getLast? = some '/' then ⟨p.text ++ inner⟩
  else ⟨p.text ++ "/" ++ inner⟩

/-- The components of a path below a base, when it lies there. -/
def below? (p base : Path) : Option (List Step) :=
  go base.components p.components
where
  /-- Removes a front from a list of components. -/
  go : List Step → List Step → Option (List Step)
    | [], rest => some rest
    | _ :: _, [] => none
    | b :: front, c :: rest => if b = c then go front rest else none

/-- Whether a path is a base or lies below it. -/
def startsWith (p base : Path) : Bool :=
  (p.below? base).isSome

/-- Whether the last components of a path are those of another one. -/
def endsWith (p ending : Path) : Bool :=
  ending.components.reverse.isPrefixOf p.components.reverse

/-- The path below a base, with a slash between each two components. -/
def relativeTo? (p base : Path) : Option String :=
  (p.below? base).map fun rest => joinStrings "/" (rest.map Step.text)

/-- A file that is named like its folder and has one of the given extensions. -/
def isEntry (p : Path) (extensions : List String) : Bool :=
  match p.extension? with
  | none => false
  | some ext =>
      extensions.contains ext &&
        match p.stem?, p.parent?.bind fileName? with
        | some stem, some folder => stem == folder
        | _, _ => false

/-- The folder that holds the folder of a path. -/
def grandparent? (p : Path) : Option Path :=
  p.parent?.bind parent?

@[simp] theorem same_refl (p : Path) : p.same p = true := by
  simp [same]

theorem same_iff {p q : Path} : p.same q = true ↔ p.components = q.components := by
  simp [same]

theorem startsWith_self (p : Path) : p.startsWith p = true := by
  have go_self : ∀ cs : List Step, below?.go cs cs = some [] := by
    intro cs
    induction cs with
    | nil => rfl
    | cons c cs ih => simp [below?.go, ih]
  simp [startsWith, below?, go_self]

end Path

end ComponentAtlas
