import ComponentAtlas.Number.Binary

/-!
# JSON values

Objects keep the order of their keys, and `same` compares values by content: the order of keys
does not matter, a whole number never equals a fraction, and the two zeros are equal.
-/

namespace ComponentAtlas.Json

/-- A number is a natural number, the negative of a positive one, or a binary fraction. -/
inductive Number where
  | natural (n : Nat)
  | negative (n : Nat)
  | binary (x : ComponentAtlas.Number.Binary)
  deriving DecidableEq, Inhabited

/-- Numeric equality within one kind of number. -/
def Number.same : Number → Number → Bool
  | .natural m, .natural n => m == n
  | .negative m, .negative n => m == n
  | .binary x, .binary y => x.same y
  | _, _ => false

/-- A JSON document. -/
inductive Value where
  | null
  | bool (b : Bool)
  | number (n : Number)
  | string (s : String)
  | array (items : List Value)
  | object (fields : List (String × Value))
  deriving Inhabited

/-- The fields of an object. -/
abbrev Fields := List (String × Value)

namespace Fields

/-- The value of a key. -/
def get? (key : String) : Fields → Option Value
  | [] => none
  | (k, v) :: rest => if k = key then some v else get? key rest

/-- The fields with a key set: a known key keeps its place, a new one comes last. -/
def set (key : String) (value : Value) : Fields → Fields
  | [] => [(key, value)]
  | (k, v) :: rest => if k = key then (k, value) :: rest else (k, v) :: set key value rest

/-- The keys in order. -/
def keys (fields : Fields) : List String :=
  fields.map (·.1)

/-- The fields of a list of pairs: a repeated key keeps its first place and its last value. -/
def ofPairs (pairs : Fields) : Fields :=
  pairs.foldl (fun fields (key, value) => fields.set key value) []

@[simp] theorem get?_nil (key : String) : get? key [] = none := rfl

theorem get?_set (fields : Fields) (key other : String) (value : Value) :
    (fields.set key value).get? other = if key = other then some value else fields.get? other := by
  induction fields with
  | nil => simp [set, get?]
  | cons field rest ih =>
      obtain ⟨k, v⟩ := field
      by_cases h : k = key
      · subst h
        by_cases hk : k = other <;> simp [set, get?, hk]
      · by_cases hk : k = other
        · subst hk
          have : ¬ key = k := fun e => h e.symm
          simp [set, get?, h, this]
        · simp [set, get?, h, hk, ih]

end Fields

namespace Value

mutual

/-- Equality by content. -/
def same : Value → Value → Bool
  | .null, .null => true
  | .bool a, .bool b => a == b
  | .number a, .number b => a.same b
  | .string a, .string b => a == b
  | .array a, .array b => sameItems a b
  | .object a, .object b => a.length == b.length && sameFields a b
  | _, _ => false

/-- Equality of lists of values, place by place. -/
def sameItems : List Value → List Value → Bool
  | [], [] => true
  | a :: as, b :: bs => same a b && sameItems as bs
  | _, _ => false

/-- Whether every field of the first object has an equal one in the second. -/
def sameFields : List (String × Value) → List (String × Value) → Bool
  | [], _ => true
  | (key, value) :: rest, other =>
      (match Fields.get? key other with
        | some v => same value v
        | none => false) && sameFields rest other

end

/-- Whether a list of values has one that is equal by content. -/
def isIn (value : Value) (items : List Value) : Bool :=
  items.any fun item => item.same value

/-- The value of a key, when the value is an object that has it. -/
def get? (key : String) : Value → Option Value
  | .object fields => Fields.get? key fields
  | _ => none

/-- The text of a string value. -/
def string? : Value → Option String
  | .string s => some s
  | _ => none

/-- The truth value of a boolean. -/
def bool? : Value → Option Bool
  | .bool b => some b
  | _ => none

/-- The items of an array. -/
def array? : Value → Option (List Value)
  | .array items => some items
  | _ => none

/-- The fields of an object. -/
def object? : Value → Option Fields
  | .object fields => some fields
  | _ => none

/-- A number that counts something. -/
def natural? : Value → Option Nat
  | .number (.natural n) => some n
  | _ => none

/-- The number that counts something. -/
def ofNat (n : Nat) : Value := .number (.natural n)

/-- A list of strings. -/
def ofStrings (strings : List String) : Value := .array (strings.map .string)

/-- A value that may be absent. -/
def ofOption {α : Type} (f : α → Value) : Option α → Value
  | none => .null
  | some a => f a

end Value

end ComponentAtlas.Json
