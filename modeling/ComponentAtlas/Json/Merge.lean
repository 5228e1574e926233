import ComponentAtlas.Json.Value

/-!
# Conservative merge

Merging generated data into a document adds what is missing and never removes: objects gain
absent keys and merge present ones, arrays gain absent items, a scalar that meets an array
becomes its first item, and any other value stays. The result says whether anything changed.
-/

namespace ComponentAtlas.Json

/-- The items with those of a second list appended that are not there yet, in order, and whether
any was. -/
def unionItems (items : List Value) : List Value → List Value × Bool
  | [] => (items, false)
  | item :: more =>
      if item.isIn items then unionItems items more
      else ((unionItems (items ++ [item]) more).1, true)

namespace Value

mutual

/-- The value with another merged into it, and whether it changed. -/
def merge (base : Value) : Value → Value × Bool
  | .object fields =>
      match base with
      | .object present =>
          let (merged, changed) := mergeFields present fields
          (.object merged, changed)
      | kept => (kept, false)
  | .array items =>
      match base with
      | .object present => (.object present, false)
      | .array present =>
          let (all, changed) := unionItems present items
          (.array all, changed)
      | scalar => (.array (unionItems [scalar] items).1, true)
  | scalar =>
      match base with
      | .array present =>
          let (all, changed) := unionItems present [scalar]
          (.array all, changed)
      | kept => (kept, false)

/-- The fields with others merged into them one after the other, and whether any changed. -/
def mergeFields (present : Fields) : List (String × Value) → Fields × Bool
  | [] => (present, false)
  | (key, value) :: more =>
      match Fields.get? key present with
      | some old =>
          let (merged, changed) := merge old value
          let (all, later) := mergeFields (Fields.set key merged present) more
          (all, changed || later)
      | none => ((mergeFields (Fields.set key value present) more).1, true)

end

end Value

end ComponentAtlas.Json
