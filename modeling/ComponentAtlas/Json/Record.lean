import ComponentAtlas.Json.Reader

/-!
# Records

A record is an object with known keys, or an array of their values in a fixed order. A known key
may stand only once; unknown keys do not count.
-/

namespace ComponentAtlas.Json

/-- The values of the known keys of a record, in the order of the keys. -/
structure Record where
  positional : Bool
  values : List (String × Option Located)

namespace Record

/-- The value of a known key. -/
def value? (r : Record) (key : String) : Option Located :=
  (r.values.find? fun entry => entry.1 == key).bind (·.2)

/-- The values of a key among located fields. -/
def occurrences (key : String) (fields : List (String × Nat × Located)) : List Located :=
  fields.filterMap fun (k, _, v) => if k = key then some v else none

/-- The values for the known keys, when none of them stands twice. -/
def ofFields? (fields : List (String × Nat × Located)) :
    List String → Option (List (String × Option Located))
  | [] => some []
  | key :: keys =>
      match occurrences key fields, ofFields? fields keys with
      | [], some rest => some ((key, none) :: rest)
      | [v], some rest => some ((key, some v) :: rest)
      | _, _ => none

/-- The values for the known keys by place; more values than keys are no record. -/
def ofItems? : List Located → List String → Option (List (String × Option Located))
  | [], keys => some (keys.map fun key => (key, none))
  | _ :: _, [] => none
  | v :: items, key :: keys => (ofItems? items keys).map ((key, some v) :: ·)

/-- The record of a value with the given keys. -/
def ofLocated? (keys : List String) : Located → Option Record
  | .object _ _ fields => (ofFields? fields keys).map (⟨false, ·⟩)
  | .array _ _ items => (ofItems? items keys).map (⟨true, ·⟩)
  | _ => none

/-- The record of a value in which a value given by place stands for every key. -/
def complete? (keys : List String) (v : Located) : Option Record :=
  (ofLocated? keys v).filter fun r => !r.positional || r.values.all fun entry => entry.2.isSome

/-- A required value. -/
def required? {α : Type} (r : Record) (key : String) (decode : Located → Option α) : Option α :=
  (r.value? key).bind decode

/-- A value that may be missing or null. -/
def optional? {α : Type} (r : Record) (key : String) (decode : Located → Option α) :
    Option (Option α) :=
  match r.value? key with
  | none => some none
  | some (.null _) => some none
  | some v => (decode v).map some

/-- A value that has a default when it is missing. -/
def orDefault? {α : Type} (r : Record) (key : String) (default : α)
    (decode : Located → Option α) : Option α :=
  match r.value? key with
  | none => some default
  | some v => decode v

end Record

namespace Located

/-- The text of a string. -/
def string? : Located → Option String
  | .string _ s => some s
  | _ => none

/-- A truth value. -/
def bool? : Located → Option Bool
  | .bool _ b => some b
  | _ => none

/-- A natural number below a bound. -/
def below? (bound : Nat) : Located → Option Nat
  | .number _ (.natural n) => if n < bound then some n else none
  | _ => none

/-- The values of the items of an array. -/
def items? {α : Type} (decode : Located → Option α) : Located → Option (List α)
  | .array _ _ items => items.mapM decode
  | _ => none

/-- A word, alone or as the only key of an object with the value null. -/
def word? {α : Type} (ofWord? : String → Option α) : Located → Option α
  | .string _ s => ofWord? s
  | .object _ _ [(s, _, .null _)] => ofWord? s
  | _ => none

end Located

end ComponentAtlas.Json
