import ComponentAtlas.Json.Merge
import ComponentAtlas.Proofs.Json.Soundness

/-!
# Merging twice

A merge that reports no change has changed nothing, and what has been merged once changes nothing
when it is merged again. That stays so when the merged value is printed and read back, although a
number may be read as another one: data that are generated hold no numbers.
-/

namespace ComponentAtlas.Json

section Union

variable {items more : List Value} {v : Value}

theorem isIn_append_left (h : v.isIn items = true) (more : List Value) :
    v.isIn (items ++ more) = true := by
  rw [Value.isIn, List.any_append, Bool.or_eq_true]
  exact .inl h

theorem isIn_of_mem (hv : v.same v = true) (h : v ∈ items) : v.isIn items = true :=
  List.any_eq_true.mpr ⟨v, h, hv⟩

theorem unionItems_of_isIn (h : ∀ v ∈ more, v.isIn items = true) :
    unionItems items more = (items, false) := by
  induction more with
  | nil => rfl
  | cons item more ih =>
      obtain ⟨hitem, hmore⟩ := List.forall_mem_cons.mp h
      rw [unionItems, if_pos hitem, ih hmore]

/-- Nothing is appended exactly if every item is there already. -/
theorem unionItems_unchanged_iff :
    (unionItems items more).2 = false ↔ ∀ v ∈ more, v.isIn items = true := by
  refine ⟨fun h => ?_, fun h => by rw [unionItems_of_isIn h]⟩
  induction more with
  | nil => exact fun v hv => (List.not_mem_nil hv).elim
  | cons item more ih =>
      rw [unionItems] at h
      split at h
      · next hitem => exact List.forall_mem_cons.mpr ⟨hitem, ih h⟩
      · cases h

/-- The items with what is appended to them. -/
theorem unionItems_append (items more : List Value) :
    ∃ added, (unionItems items more).1 = items ++ added ∧ ∀ v ∈ added, v ∈ more := by
  induction more generalizing items with
  | nil => exact ⟨[], (List.append_nil _).symm, fun v hv => (List.not_mem_nil hv).elim⟩
  | cons item more ih =>
      rw [unionItems]
      split
      · obtain ⟨added, heq, hadded⟩ := ih items
        exact ⟨added, heq, fun v hv => List.mem_cons_of_mem _ (hadded v hv)⟩
      · obtain ⟨added, heq, hadded⟩ := ih (items ++ [item])
        refine ⟨item :: added, heq.trans (by simp), List.forall_mem_cons.mpr
          ⟨List.mem_cons_self, fun v hv => List.mem_cons_of_mem _ (hadded v hv)⟩⟩

theorem forall_unionItems {P : Value → Prop} (hitems : ∀ v ∈ items, P v) (hmore : ∀ v ∈ more, P v) :
    ∀ v ∈ (unionItems items more).1, P v := by
  obtain ⟨added, heq, hadded⟩ := unionItems_append items more
  rw [heq]
  exact List.forall_mem_append.mpr ⟨hitems, fun v hv => hmore v (hadded v hv)⟩

theorem isIn_unionItems_left (h : v.isIn items = true) (more : List Value) :
    v.isIn (unionItems items more).1 = true := by
  obtain ⟨added, heq, -⟩ := unionItems_append items more
  rw [heq]
  exact isIn_append_left h added

theorem isIn_unionItems (hsame : ∀ v ∈ more, v.same v = true) :
    ∀ v ∈ more, v.isIn (unionItems items more).1 = true := by
  induction more generalizing items with
  | nil => exact fun v hv => (List.not_mem_nil hv).elim
  | cons item more ih =>
      obtain ⟨hitem, hmore⟩ := List.forall_mem_cons.mp hsame
      rw [unionItems]
      split
      · next hin => exact List.forall_mem_cons.mpr ⟨isIn_unionItems_left hin more, ih hmore⟩
      · exact List.forall_mem_cons.mpr ⟨isIn_unionItems_left
          (isIn_of_mem hitem (List.mem_append_right _ List.mem_cons_self)) more, ih hmore⟩

end Union

namespace Fields

variable {fields : Fields} {key : String} {value : Value}

theorem set_get? (h : fields.get? key = some value) : fields.set key value = fields := by
  induction fields with
  | nil => cases h
  | cons field rest ih =>
      obtain ⟨k, v⟩ := field
      rw [get?] at h
      rw [set]
      split
      · next hk =>
          rw [if_pos hk] at h
          cases h
          rfl
      · next hk =>
          rw [if_neg hk] at h
          rw [ih h]

theorem mem_of_get? (h : fields.get? key = some value) : (key, value) ∈ fields := by
  induction fields with
  | nil => cases h
  | cons field rest ih =>
      obtain ⟨k, v⟩ := field
      rw [get?] at h
      split at h
      · next hk =>
          cases h
          exact hk ▸ List.mem_cons_self
      · exact List.mem_cons_of_mem _ (ih h)

theorem get?_eq_none (h : key ∉ fields.keys) : fields.get? key = none := by
  cases hget : fields.get? key with
  | none => rfl
  | some value => exact absurd (List.mem_map_of_mem (mem_of_get? hget)) h

/-- Where no key is repeated, every field is the field of its key. -/
theorem get?_of_mem (hkeys : fields.keys.Nodup) (h : (key, value) ∈ fields) :
    fields.get? key = some value := by
  induction fields with
  | nil => cases h
  | cons field rest ih =>
      obtain ⟨k, v⟩ := field
      rw [keys_cons, List.nodup_cons] at hkeys
      rw [get?]
      rcases List.mem_cons.mp h with heq | hmem
      · cases heq
        rw [if_pos rfl]
      · rw [if_neg, ih hkeys.2 hmem]
        rintro rfl
        exact hkeys.1 (List.mem_map_of_mem hmem)

end Fields

namespace Value

/-- A value without repeated keys equals itself. -/
theorem Tidy.same_self {v : Value} (h : v.Tidy) : v.same v = true := by
  induction h with
  | null => rfl
  | bool b => simp [same]
  | number n => cases n <;> simp [same, Number.same]
  | string s => simp [same]
  | @array items h ih =>
      rw [same]
      clear h
      induction items with
      | nil => rfl
      | cons item items ihItems =>
          obtain ⟨hitem, hitems⟩ := List.forall_mem_cons.mp ih
          rw [sameItems, hitem, ihItems hitems, Bool.and_self]
  | @object fields hkeys h ih =>
      rw [same, beq_self_eq_true, Bool.true_and]
      have hfields : ∀ more, (∀ f ∈ more, f ∈ fields) → sameFields more fields = true := by
        intro more hmore
        induction more with
        | nil => rfl
        | cons field more ihMore =>
            obtain ⟨key, value⟩ := field
            obtain ⟨hfield, hmore⟩ := List.forall_mem_cons.mp hmore
            rw [sameFields, Fields.get?_of_mem hkeys hfield, ihMore hmore, Bool.and_true]
            exact ih _ hfield
      exact hfields fields fun f hf => hf

/-- What holds of every value if it holds of those in its fields: all that a merge steps into. -/
@[elab_as_elim]
theorem fieldInduction {motive : Value → Prop}
    (step : ∀ v, (∀ fields, v = .object fields → ∀ f ∈ fields, motive f.2) → motive v)
    (v : Value) : motive v := by
  have other : ∀ v : Value, v.object? = none → motive v := fun v hv => step v fun fields heq => by
    rw [heq] at hv
    cases hv
  exact @Value.rec motive (fun _ => True) (fun fields => ∀ f ∈ fields, motive f.2)
    (fun f => motive f.2) (other _ rfl) (fun _ => other _ rfl) (fun _ => other _ rfl)
    (fun _ => other _ rfl) (fun _ _ => other _ rfl)
    (fun fields ih => step _ fun _ heq => by cases heq; exact ih)
    trivial (fun _ _ _ _ => trivial) (fun _ hf => (List.not_mem_nil hf).elim)
    (fun _ _ hfield hfields => List.forall_mem_cons.mpr ⟨hfield, hfields⟩)
    (fun _ _ hvalue => hvalue) v

section Merge

variable {base data : Value} {present fields : Fields} {key : String} {value : Value}

/-- The items of an array; any other value is the only item. -/
def listed : Value → List Value
  | .array items => items
  | v => [v]

theorem object_merge_object (present fields : Fields) :
    (Value.object present).merge (.object fields) =
      (.object (mergeFields present fields).1, (mergeFields present fields).2) := by
  rw [merge]

theorem array_merge (present : List Value) (hdata : data.object? = none) :
    (Value.array present).merge data =
      (.array (unionItems present data.listed).1, (unionItems present data.listed).2) := by
  cases data with
  | object fields => cases hdata
  | _ => simp [merge, listed]

/-- How two values can meet: two objects, an array and what is no object, what is neither and an
array. Otherwise the first value stays. -/
theorem merge_cases (base data : Value) :
    (∃ present fields, base = .object present ∧ data = .object fields) ∨
      (∃ present, base = .array present ∧ data.object? = none) ∨
      (∃ items, data = .array items ∧ base.listed = [base] ∧ base.object? = none ∧
        base.merge data = (.array (unionItems [base] items).1, true)) ∨
      base.merge data = (base, false) := by
  cases base with
  | object present =>
      cases data with
      | object fields => exact .inl ⟨present, fields, rfl, rfl⟩
      | _ => exact .inr (.inr (.inr (by simp [merge])))
  | array present =>
      cases data with
      | object fields => exact .inr (.inr (.inr (by simp [merge])))
      | _ => exact .inr (.inl ⟨present, rfl, rfl⟩)
  | _ =>
      cases data with
      | array items => exact .inr (.inr (.inl ⟨items, rfl, rfl, rfl, by simp [merge]⟩))
      | _ => exact .inr (.inr (.inr (by simp [merge])))

/-- A value merged over what stands at its key, if anything does. -/
def mergedOver (value : Value) : Option Value → Value
  | some old => (old.merge value).1
  | none => value

theorem mergeFields_cons (present : Fields) (key : String) (value : Value) (more : Fields) :
    (mergeFields present ((key, value) :: more)).1 =
      (mergeFields (present.set key (value.mergedOver (present.get? key))) more).1 := by
  rw [mergeFields]
  split
  · next old hold => rw [hold]; rfl
  · next hnone => rw [hnone]; rfl

/-- Fields merge into what is there without a change exactly if each of them does. -/
theorem mergeFields_unchanged_iff
    (ih : ∀ f ∈ fields, ∀ base : Value, (base.merge f.2).2 = false → (base.merge f.2).1 = base) :
    (mergeFields present fields).2 = false ↔
      ∀ f ∈ fields, ∃ old, present.get? f.1 = some old ∧ (old.merge f.2).2 = false := by
  induction fields with
  | nil => simp [mergeFields]
  | cons field more ihMore =>
      obtain ⟨key, value⟩ := field
      obtain ⟨hvalue, hmore⟩ := List.forall_mem_cons.mp ih
      rw [List.forall_mem_cons, mergeFields]
      cases hold : Fields.get? key present with
      | none => simp
      | some old =>
          simp only [Option.some.injEq, exists_eq_left', Bool.or_eq_false_iff]
          refine and_congr_right fun hchanged => ?_
          rw [hvalue old hchanged, Fields.set_get? hold]
          exact ihMore hmore

theorem mergeFields_eq_of_unchanged
    (ih : ∀ f ∈ fields, ∀ base : Value, (base.merge f.2).2 = false → (base.merge f.2).1 = base)
    (h : ∀ f ∈ fields, ∃ old, present.get? f.1 = some old ∧ (old.merge f.2).2 = false) :
    (mergeFields present fields).1 = present := by
  induction fields with
  | nil => rw [mergeFields]
  | cons field more ihMore =>
      obtain ⟨key, value⟩ := field
      obtain ⟨hvalue, hmore⟩ := List.forall_mem_cons.mp ih
      obtain ⟨⟨old, hold, hchanged⟩, hrest⟩ := List.forall_mem_cons.mp h
      rw [mergeFields_cons, hold, mergedOver, hvalue old hchanged, Fields.set_get? hold]
      exact ihMore hmore hrest

/-- A merge that reports no change has changed nothing. -/
theorem merge_eq_of_unchanged (h : (base.merge data).2 = false) : (base.merge data).1 = base := by
  induction data using Value.fieldInduction generalizing base with
  | step data ih =>
      rcases merge_cases base data with
        ⟨present, fields, rfl, rfl⟩ | ⟨present, rfl, hdata⟩ | ⟨_, -, -, -, hmerge⟩ | hkept
      · have hfields : ∀ f ∈ fields, ∀ base : Value,
            (base.merge f.2).2 = false → (base.merge f.2).1 = base :=
          fun f hf base => ih fields rfl f hf
        rw [object_merge_object] at h ⊢
        rw [mergeFields_eq_of_unchanged hfields ((mergeFields_unchanged_iff hfields).mp h)]
      · rw [array_merge present hdata] at h ⊢
        rw [unionItems_of_isIn (unionItems_unchanged_iff.mp h)]
      · rw [hmerge] at h
        cases h
      · rw [hkept]

/-- Fields merge without a change exactly if what stands at their keys stays. -/
theorem object_merge_unchanged_iff :
    ((Value.object present).merge (.object fields)).2 = false ↔
      ∀ f ∈ fields, ∃ old, present.get? f.1 = some old ∧ (old.merge f.2).2 = false := by
  rw [object_merge_object]
  exact mergeFields_unchanged_iff fun f _ base => merge_eq_of_unchanged

theorem get?_mergeFields_of_not_mem (h : key ∉ fields.keys) :
    Fields.get? key (mergeFields present fields).1 = present.get? key := by
  induction fields generalizing present with
  | nil => rw [mergeFields]
  | cons field more ih =>
      obtain ⟨k, v⟩ := field
      rw [Fields.keys_cons, List.mem_cons, not_or] at h
      rw [mergeFields_cons, ih h.2, Fields.get?_set, if_neg (fun e => h.1 e.symm)]

/-- At the key of a field stands afterwards its value over what stood there. -/
theorem get?_mergeFields_of_mem (hkeys : fields.keys.Nodup) (h : (key, value) ∈ fields) :
    Fields.get? key (mergeFields present fields).1 =
      some (value.mergedOver (present.get? key)) := by
  induction fields generalizing present with
  | nil => cases h
  | cons field more ih =>
      obtain ⟨k, v⟩ := field
      rw [Fields.keys_cons, List.nodup_cons] at hkeys
      rw [mergeFields_cons]
      rcases List.mem_cons.mp h with heq | hmem
      · cases heq
        rw [get?_mergeFields_of_not_mem hkeys.1, Fields.get?_set, if_pos rfl]
      · have hne : k ≠ key := by
          rintro rfl
          exact hkeys.1 (List.mem_map_of_mem hmem)
        rw [ih hkeys.2 hmem, Fields.get?_set, if_neg hne]

/-- A value merges into itself without a change. -/
theorem Tidy.merge_self (h : data.Tidy) : (data.merge data).2 = false := by
  induction h with
  | @array items h _ =>
      rw [array_merge items rfl]
      exact unionItems_unchanged_iff.mpr fun v hv => isIn_of_mem (h v hv).same_self hv
  | @object fields hkeys h ih =>
      exact object_merge_unchanged_iff.mpr fun f hf => ⟨f.2, Fields.get?_of_mem hkeys hf, ih f hf⟩
  | _ => simp [merge]

theorem Tidy.of_object (h : (Value.object fields).Tidy) :
    fields.keys.Nodup ∧ ∀ f ∈ fields, f.2.Tidy := by
  cases h with
  | object hkeys h => exact ⟨hkeys, h⟩

theorem Tidy.listed (h : data.Tidy) : ∀ v ∈ data.listed, v.Tidy := by
  cases h with
  | array h => exact h
  | _ => exact List.forall_mem_singleton.mpr (by constructor <;> assumption)

/-- What has been merged once changes nothing when it is merged again. -/
theorem merge_merge (h : data.Tidy) (base : Value) :
    ((base.merge data).1.merge data).2 = false := by
  induction data using Value.fieldInduction generalizing base with
  | step data ih =>
      rcases merge_cases base data with
        ⟨present, fields, rfl, rfl⟩ | ⟨present, rfl, hdata⟩ | ⟨items, rfl, -, -, hmerge⟩ | hkept
      · obtain ⟨hkeys, hfields⟩ := h.of_object
        rw [object_merge_object]
        refine object_merge_unchanged_iff.mpr fun f hf =>
          ⟨_, get?_mergeFields_of_mem hkeys hf, ?_⟩
        cases Fields.get? f.1 present with
        | none => exact (hfields f hf).merge_self
        | some old => exact ih fields rfl f hf (hfields f hf) old
      · rw [array_merge present hdata, array_merge _ hdata]
        exact unionItems_unchanged_iff.mpr (isIn_unionItems fun v hv => (h.listed v hv).same_self)
      · rw [hmerge, array_merge _ rfl]
        exact unionItems_unchanged_iff.mpr (isIn_unionItems fun v hv => (h.listed v hv).same_self)
      · rw [hkept, hkept]

/-- A merge reports a change exactly when it changes the value, and then nothing is left to merge:
merging the same data again changes nothing, as merging a value into itself does. -/
theorem merge_exact (base : Value) (h : data.Tidy) :
    ((base.merge data).2 = true ↔ (base.merge data).1 ≠ base) ∧
      (base.merge data).1.merge data = ((base.merge data).1, false) ∧
        data.merge data = (data, false) := by
  have hagain := merge_merge h base
  refine ⟨⟨fun hchanged heq => ?_, fun hne => ?_⟩, ?_, ?_⟩
  · rw [heq, hchanged] at hagain
    cases hagain
  · by_contra hchanged
    exact hne (merge_eq_of_unchanged (eq_false_of_ne_true hchanged))
  · exact Prod.ext (merge_eq_of_unchanged hagain) hagain
  · exact Prod.ext (merge_eq_of_unchanged h.merge_self) h.merge_self

/-- A scalar becomes an array and a key is added, and that is all. -/
theorem merge_exact_boxed :
    let base : Value := .object [("extends", .string "mine")]
    let data : Value :=
      .object [("extends", .array [.string "mine", .null]), ("rules", .object [])]
    base.merge data =
        (.object [("extends", .array [.string "mine", .null]), ("rules", .object [])], true) ∧
      data.merge data = (data, false) := by
  intro base data
  have hdata : data.Tidy := by
    refine .object (by decide) (List.forall_mem_cons.mpr ⟨?_, List.forall_mem_singleton.mpr ?_⟩)
    · exact .array (List.forall_mem_cons.mpr ⟨.string _, List.forall_mem_singleton.mpr .null⟩)
    · exact .object List.nodup_nil fun f hf => (List.not_mem_nil hf).elim
  exact ⟨by rfl, (merge_exact base hdata).2.2⟩

theorem forall_mergeFields {P : Value → Prop} (hpresent : ∀ f ∈ present, P f.2)
    (hfields : ∀ f ∈ fields, P f.2)
    (hmerge : ∀ f ∈ fields, ∀ old, P old → P (old.merge f.2).1) :
    ∀ f ∈ (mergeFields present fields).1, P f.2 := by
  induction fields generalizing present with
  | nil => rwa [mergeFields]
  | cons field more ih =>
      obtain ⟨key, value⟩ := field
      obtain ⟨hvalue, hmore⟩ := List.forall_mem_cons.mp hfields
      obtain ⟨hfirst, hrest⟩ := List.forall_mem_cons.mp hmerge
      rw [mergeFields_cons]
      refine ih (fun f hf => ?_) hmore hrest
      rcases Fields.mem_set hf with hf | hf
      · exact hpresent f hf
      · rw [hf]
        cases hold : Fields.get? key present with
        | none => exact hvalue
        | some old => exact hfirst old (hpresent _ (Fields.mem_of_get? hold))

theorem nodup_keys_mergeFields (h : present.keys.Nodup) :
    (Fields.keys (mergeFields present fields).1).Nodup := by
  induction fields generalizing present with
  | nil => rwa [mergeFields]
  | cons field more ih =>
      obtain ⟨key, value⟩ := field
      rw [mergeFields_cons]
      exact ih (Fields.nodup_keys_set h _ _)

/-- A merge repeats no key. -/
theorem Tidy.merge (hbase : base.Tidy) (h : data.Tidy) : (base.merge data).1.Tidy := by
  induction data using Value.fieldInduction generalizing base with
  | step data ih =>
      rcases merge_cases base data with
        ⟨present, fields, rfl, rfl⟩ | ⟨present, rfl, hdata⟩ | ⟨items, rfl, -, -, hmerge⟩ | hkept
      · rw [object_merge_object]
        exact .object (nodup_keys_mergeFields hbase.of_object.1)
          (forall_mergeFields hbase.of_object.2 h.of_object.2 fun f hf old hold =>
            ih fields rfl f hf hold (h.of_object.2 f hf))
      · rw [array_merge present hdata]
        exact .array (forall_unionItems hbase.listed h.listed)
      · rw [hmerge]
        exact .array (forall_unionItems (List.forall_mem_singleton.mpr hbase) h.listed)
      · rwa [hkept]

theorem Within.of_object {depth : Nat} (h : (Value.object fields).Within (depth + 1)) :
    ∀ f ∈ fields, f.2.Within depth := by
  cases h with
  | object h => exact h

theorem Within.listed {depth : Nat} (h : data.Within (depth + 1)) (hdata : data.object? = none) :
    ∀ v ∈ data.listed, v.Within depth := by
  cases h with
  | array h => exact h
  | object h => cases hdata
  | _ => exact List.forall_mem_singleton.mpr (by constructor; try assumption)

theorem Within.depth_pos {depth : Nat} (h : data.Within depth)
    (hdata : data.object? ≠ none ∨ data.array? ≠ none) : ∃ inner, depth = inner + 1 := by
  cases h with
  | array h => exact ⟨_, rfl⟩
  | object h => exact ⟨_, rfl⟩
  | _ => simp [object?, array?] at hdata

/-- A merge nests no deeper. -/
theorem Within.merge {depth : Nat} (hbase : base.Within depth) (h : data.Within depth) :
    (base.merge data).1.Within depth := by
  induction data using Value.fieldInduction generalizing base depth with
  | step data ih =>
      rcases merge_cases base data with
        ⟨present, fields, rfl, rfl⟩ | ⟨present, rfl, hdata⟩ |
          ⟨items, rfl, hone, hnone, hmerge⟩ | hkept
      · obtain ⟨depth, rfl⟩ := hbase.depth_pos (.inl (Option.some_ne_none _))
        rw [object_merge_object]
        exact .object (forall_mergeFields hbase.of_object h.of_object fun f hf old hold =>
          ih fields rfl f hf hold (h.of_object f hf))
      · obtain ⟨depth, rfl⟩ := hbase.depth_pos (.inr (Option.some_ne_none _))
        rw [array_merge present hdata]
        exact .array (forall_unionItems (hbase.listed rfl) (h.listed hdata))
      · obtain ⟨depth, rfl⟩ := h.depth_pos (.inr (Option.some_ne_none _))
        rw [hmerge]
        exact .array (forall_unionItems (hone ▸ hbase.listed hnone) (h.listed rfl))
      · rwa [hkept]

end Merge

end Value

end ComponentAtlas.Json
