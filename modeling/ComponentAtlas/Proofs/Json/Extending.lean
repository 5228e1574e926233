import ComponentAtlas.Proofs.Json.Merging

/-!
# What a merge adds

A merge extends a value: at every path of keys what stood there is still there, with what fits of
the data at the same path behind it. Keys and items keep their order, nothing that is there already
is added again, and what stands at a path where nothing stood comes from the data.
-/

namespace ComponentAtlas.Json

section Union

variable {items more : List Value}

/-- What is appended is appended in the order in which it comes, and none of it is there already. -/
theorem unionItems_fresh (items more : List Value) :
    ∃ added, (unionItems items more).1 = items ++ added ∧ added.Sublist more ∧
      ∀ front v back, added = front ++ v :: back → v.isIn (items ++ front) = false := by
  induction more generalizing items with
  | nil => exact ⟨[], (List.append_nil _).symm, List.Sublist.refl _, by simp⟩
  | cons item more ih =>
      rw [unionItems]
      split
      · obtain ⟨added, heq, hsub, hfresh⟩ := ih items
        exact ⟨added, heq, hsub.cons item, hfresh⟩
      · next hitem =>
          obtain ⟨added, heq, hsub, hfresh⟩ := ih (items ++ [item])
          refine ⟨item :: added, heq.trans (by simp), hsub.cons_cons item, ?_⟩
          intro front v back hsplit
          cases front with
          | nil =>
              obtain ⟨rfl, -⟩ := List.cons.inj hsplit
              rw [List.append_nil]
              exact eq_false_of_ne_true hitem
          | cons first front =>
              obtain ⟨rfl, htail⟩ := List.cons.inj hsplit
              have := hfresh front v back htail
              rwa [List.append_assoc] at this

end Union

namespace Value

/-- Lists without two items that are equal by content. -/
def Unrepeated (items : List Value) : Prop :=
  items.Pairwise fun a b => a.same b = false

/-- Appending items that are not there yet repeats none. -/
theorem Unrepeated.append {items added : List Value} (h : Unrepeated items)
    (hfresh : ∀ front v back, added = front ++ v :: back → v.isIn (items ++ front) = false) :
    Unrepeated (items ++ added) := by
  induction added generalizing items with
  | nil => rwa [List.append_nil]
  | cons v added ih =>
      have hv : ∀ a ∈ items, a.same v = false := by
        have hnone := hfresh [] v added rfl
        rw [List.append_nil, isIn, List.any_eq_false] at hnone
        exact fun a ha => eq_false_of_ne_true (hnone a ha)
      have hone : Unrepeated (items ++ [v]) := by
        refine List.pairwise_append.mpr ⟨h, List.pairwise_singleton _ _, fun a ha b hb => ?_⟩
        rw [List.mem_singleton.mp hb]
        exact hv a ha
      have hrest := ih hone fun front w back hsplit => by
        rw [List.append_assoc, List.singleton_append]
        exact hfresh (v :: front) w back (by rw [hsplit, List.cons_append])
      rwa [List.append_assoc, List.singleton_append] at hrest

/-- The value under a path of keys. -/
def at? : List String → Value → Option Value
  | [], v => some v
  | key :: path, v => (v.get? key).bind (at? path)

/-- The fields that data bring to an object. -/
def fieldsFor : Option Value → Fields
  | some (.object fields) => fields
  | _ => []

/-- The items that data bring to an array: their own, or the data as the only one. An object brings
none. -/
def itemsFor : Option Value → List Value
  | some (.object _) => []
  | some v => v.listed
  | none => []

/-- What data at the same path make of a value. -/
inductive Extended (data : Option Value) : Value → Value → Prop where
  /-- An object keeps its keys in order; the new ones follow in the order of the data, with the
  values of the data. -/
  | object {present all : Fields}
      (hkeys : all.keys =
        present.keys ++ (fieldsFor data).keys.filter fun key => key ∉ present.keys)
      (hnew : ∀ key ∉ present.keys, all.get? key = (fieldsFor data).get? key) :
      Extended data (.object present) (.object all)
  /-- An array keeps its items in order; what follows is from the data, is not there already, and
  misses nothing of the data. -/
  | array {items added : List Value} (hfrom : added.Sublist (itemsFor data))
      (hfresh : ∀ front v back, added = front ++ v :: back → v.isIn (items ++ front) = false)
      (hall : ∀ v ∈ itemsFor data, v.isIn (items ++ added) = true)
      (hunrepeated : Unrepeated items → Unrepeated (items ++ added)) :
      Extended data (.array items) (.array (items ++ added))
  /-- A scalar stays unless it meets an array. -/
  | kept {v : Value} (hobject : v.object? = none) (harray : v.array? = none)
      (hdata : data.bind array? = none) : Extended data v v
  /-- A scalar that meets an array becomes the first item of one. -/
  | boxed {v : Value} {items added : List Value} (hobject : v.object? = none)
      (harray : v.array? = none) (hdata : data = some (.array items))
      (hfrom : added.Sublist items)
      (hfresh : ∀ front w back, added = front ++ w :: back → w.isIn (v :: front) = false)
      (hall : ∀ w ∈ items, w.isIn (v :: added) = true) :
      Extended data v (.array (v :: added))

section Merge

variable {base data old : Value} {present fields : Fields} {key : String} {value : Value}

/-- The keys of merged fields: those that were there, and the new ones behind them. -/
theorem keys_mergeFields (hkeys : fields.keys.Nodup) :
    Fields.keys (mergeFields present fields).1 =
      present.keys ++ fields.keys.filter fun key => key ∉ present.keys := by
  induction fields generalizing present with
  | nil => simp [mergeFields, Fields.keys]
  | cons field more ih =>
      obtain ⟨key, value⟩ := field
      rw [Fields.keys_cons, List.nodup_cons] at hkeys
      rw [mergeFields_cons, ih hkeys.2, Fields.keys_cons]
      by_cases hmem : key ∈ present.keys
      · rw [Fields.keys_set_of_mem hmem, List.filter_cons_of_neg (by simpa using hmem)]
      · have hset : (present.set key (value.mergedOver (present.get? key))).keys =
            present.keys ++ [key] := by
          rw [Fields.set_of_not_mem hmem]
          simp [Fields.keys]
        -- The key is not repeated, so that it does not matter that it is there now.
        have hmore : ((Fields.keys more).filter fun k => k ∉ present.keys ++ [key]) =
            (Fields.keys more).filter fun k => k ∉ present.keys := by
          refine List.filter_congr fun k hk => ?_
          have hne : k ≠ key := fun heq => hkeys.1 (heq ▸ hk)
          simp [hne]
        rw [hset, hmore, List.filter_cons_of_pos (by simpa using hmem), List.append_assoc,
          List.singleton_append]

/-- What stands at a key of merged fields. -/
theorem get?_mergeFields (hkeys : fields.keys.Nodup) (key : String) :
    Fields.get? key (mergeFields present fields).1 =
      match fields.get? key with
      | some value => some (value.mergedOver (present.get? key))
      | none => present.get? key := by
  cases hget : fields.get? key with
  | some value => exact get?_mergeFields_of_mem hkeys (Fields.mem_of_get? hget)
  | none =>
      refine get?_mergeFields_of_not_mem fun hmem => ?_
      obtain ⟨⟨k, value⟩, hfield, rfl⟩ := List.mem_map.mp hmem
      rw [Fields.get?_of_mem hkeys hfield] at hget
      cases hget

/-- The value of a key stays, with what the data have at the key merged into it. -/
theorem get?_merge_of_some (h : data.Tidy) (hget : base.get? key = some old) :
    (base.merge data).1.get? key =
      some (match data.get? key with
        | some value => (old.merge value).1
        | none => old) := by
  cases base with
  | object present =>
      have hpresent : Fields.get? key present = some old := hget
      cases data with
      | object fields =>
          rw [object_merge_object]
          change Fields.get? key (mergeFields present fields).1 = _
          rw [get?_mergeFields h.of_object.1, hpresent, get?]
          cases Fields.get? key fields <;> rfl
      | _ => simpa [merge, get?] using hpresent
  | _ => cases hget

/-- What stands at a key that had no value is from the data. -/
theorem get?_merge_of_none (h : data.Tidy) (hget : base.get? key = none)
    (hvalue : (base.merge data).1.get? key = some value) : data.get? key = some value := by
  rcases merge_cases base data with
    ⟨present, fields, rfl, rfl⟩ | ⟨present, rfl, hdata⟩ | ⟨items, -, -, -, hmerge⟩ | hkept
  · rw [object_merge_object] at hvalue
    have hmerged : Fields.get? key (mergeFields present fields).1 = some value := hvalue
    have hpresent : Fields.get? key present = none := hget
    rw [get?_mergeFields h.of_object.1, hpresent] at hmerged
    rw [get?]
    cases hfield : Fields.get? key fields with
    | none =>
        rw [hfield] at hmerged
        cases hmerged
    | some v =>
        rw [hfield] at hmerged
        exact hmerged
  · rw [array_merge present hdata] at hvalue
    cases hvalue
  · rw [hmerge] at hvalue
    cases hvalue
  · rw [hkept, hget] at hvalue
    cases hvalue

theorem Tidy.get? (h : data.Tidy) (hget : data.get? key = some value) : value.Tidy := by
  cases data with
  | object fields => exact h.of_object.2 _ (Fields.mem_of_get? hget)
  | _ => cases hget

theorem Tidy.at? (h : data.Tidy) {path : List String} (hat : data.at? path = some value) :
    value.Tidy := by
  induction path generalizing data with
  | nil => exact Option.some.inj hat ▸ h
  | cons key path ih =>
      obtain ⟨next, hnext, hrest⟩ := Option.bind_eq_some_iff.mp hat
      exact ih (h.get? hnext) hrest

/-- A merge reaches each place of a value with what the data have at the same path. -/
theorem at?_merge_of_some (h : data.Tidy) {path : List String} (hat : base.at? path = some old) :
    (base.merge data).1.at? path =
      some (match data.at? path with
        | some value => (old.merge value).1
        | none => old) := by
  induction path generalizing base data with
  | nil =>
      obtain rfl := Option.some.inj hat
      rfl
  | cons key path ih =>
      obtain ⟨next, hnext, hrest⟩ := Option.bind_eq_some_iff.mp hat
      rw [at?, get?_merge_of_some h hnext, Option.bind_some, at?]
      cases hvalue : data.get? key with
      | none => exact hrest
      | some value => exact ih (h.get? hvalue) hrest

/-- What stands at a path that led nowhere is from the data. -/
theorem at?_merge_of_none (h : data.Tidy) {path : List String} (hat : base.at? path = none)
    (hvalue : (base.merge data).1.at? path = some value) : data.at? path = some value := by
  induction path generalizing base data with
  | nil => cases hat
  | cons key path ih =>
      obtain ⟨next, hnext, hrest⟩ := Option.bind_eq_some_iff.mp hvalue
      rw [at?] at hat ⊢
      cases hold : base.get? key with
      | none =>
          rw [get?_merge_of_none h hold hnext]
          exact hrest
      | some old =>
          rw [hold, Option.bind_some] at hat
          rw [get?_merge_of_some h hold] at hnext
          cases hdata : data.get? key with
          | none =>
              rw [hdata] at hnext
              obtain rfl := Option.some.inj hnext
              rw [hat] at hrest
              cases hrest
          | some incoming =>
              rw [hdata] at hnext
              obtain rfl := Option.some.inj hnext
              exact ih (h.get? hdata) hat hrest

theorem extended_object_self {incoming : Option Value} (present : Fields)
    (h : fieldsFor incoming = []) : Extended incoming (.object present) (.object present) := by
  refine .object (by simp [h, Fields.keys]) fun key hkey => ?_
  rw [h, Fields.get?_eq_none hkey, Fields.get?_nil]

theorem extended_array_self {incoming : Option Value} (items : List Value)
    (h : itemsFor incoming = []) : Extended incoming (.array items) (.array items) := by
  have hself : Extended incoming (.array items) (.array (items ++ [])) :=
    .array (List.nil_sublist _) (by simp) (by simp [h]) (by simp)
  rwa [List.append_nil] at hself

/-- Where no data come, nothing changes. -/
theorem extended_none (v : Value) : Extended none v v := by
  cases v with
  | object present => exact extended_object_self present rfl
  | array items => exact extended_array_self items rfl
  | _ => exact .kept rfl rfl rfl

theorem extended_array (items : List Value) (h : data.Tidy) (hdata : data.object? = none) :
    Extended (some data) (.array items) (.array (unionItems items data.listed).1) := by
  obtain ⟨added, heq, hsub, hfresh⟩ := unionItems_fresh items data.listed
  have hitems : itemsFor (some data) = data.listed := by
    cases data with
    | object fields => cases hdata
    | _ => rfl
  rw [heq]
  refine .array (hitems ▸ hsub) hfresh (fun v hv => ?_) fun hunrepeated => hunrepeated.append hfresh
  rw [← heq]
  exact isIn_unionItems (fun w hw => (h.listed w hw).same_self) v (hitems ▸ hv)

theorem extended_scalar (h : data.Tidy) (hobject : base.object? = none)
    (harray : base.array? = none) : Extended (some data) base (base.merge data).1 := by
  cases data with
  | array items =>
      have hmerge : base.merge (.array items) = (.array (unionItems [base] items).1, true) := by
        cases base with
        | object present => cases hobject
        | array present => cases harray
        | _ => simp [merge]
      obtain ⟨added, heq, hsub, hfresh⟩ := unionItems_fresh [base] items
      rw [hmerge, heq]
      refine .boxed hobject harray rfl hsub hfresh fun w hw => ?_
      change w.isIn ([base] ++ added) = true
      rw [← heq]
      exact isIn_unionItems (fun w hw => (h.listed w hw).same_self) w hw
  | _ =>
      cases base with
      | object present => cases hobject
      | array present => cases harray
      | _ =>
          simp only [merge]
          exact .kept rfl rfl rfl

/-- A merge extends a value by the data. -/
theorem extended_merge (base : Value) (h : data.Tidy) :
    Extended (some data) base (base.merge data).1 := by
  cases base with
  | object present =>
      cases data with
      | object fields =>
          rw [object_merge_object]
          refine .object (keys_mergeFields h.of_object.1) fun key hkey => ?_
          rw [get?_mergeFields h.of_object.1, Fields.get?_eq_none hkey, fieldsFor]
          cases Fields.get? key fields <;> rfl
      | _ =>
          simp only [merge]
          exact extended_object_self present rfl
  | array items =>
      cases data with
      | object fields =>
          simp only [merge]
          exact extended_array_self items rfl
      | _ =>
          rw [array_merge items rfl]
          exact extended_array items h rfl
  | _ => exact extended_scalar h rfl rfl

/-- A merge extends what stands at each path of keys by what the data have at the same path, and
what stands where nothing stood comes from the data as it is. -/
theorem merge_extends (base : Value) (h : data.Tidy) (path : List String) :
    (∀ old, base.at? path = some old →
        ∃ new, (base.merge data).1.at? path = some new ∧ Extended (data.at? path) old new) ∧
      (base.at? path = none →
        ∀ new, (base.merge data).1.at? path = some new → data.at? path = some new) := by
  refine ⟨fun old hold => ⟨_, at?_merge_of_some h hold, ?_⟩,
    fun hnone new => at?_merge_of_none h hnone⟩
  cases hdata : data.at? path with
  | none => exact extended_none old
  | some value => exact extended_merge old (h.at? hdata)

namespace Sample

/-- Lint rules as a user wrote them. -/
def rules : Value :=
  .object [("extends", .string "mine"), ("rules", .object [("semi", .bool true)])]

/-- Rules that were generated. -/
def generated : Value :=
  .object [("rules", .object [("eqeqeq", .null), ("semi", .array [.bool false, .bool true])]),
    ("root", .bool true)]

theorem generated_tidy : generated.Tidy := by
  refine .object (by decide) (List.forall_mem_cons.mpr ⟨?_, List.forall_mem_singleton.mpr ?_⟩)
  · refine .object (by decide) (List.forall_mem_cons.mpr ⟨.null, List.forall_mem_singleton.mpr ?_⟩)
    exact .array (List.forall_mem_cons.mpr ⟨.bool _, List.forall_mem_singleton.mpr (.bool _)⟩)
  · exact .bool true

end Sample

/-- A rule becomes an array, and another rule comes behind it. -/
theorem merge_extends_rules :
    (Sample.rules.merge Sample.generated).1.at? ["rules"] =
        some (.object [("semi", .array [.bool true, .bool false]), ("eqeqeq", .null)]) ∧
      Extended (Sample.generated.at? ["rules"]) (.object [("semi", .bool true)])
        (.object [("semi", .array [.bool true, .bool false]), ("eqeqeq", .null)]) ∧
        Sample.generated.at? ["root"] = some (.bool true) := by
  have hnew : (Sample.rules.merge Sample.generated).1.at? ["rules"] =
      some (.object [("semi", .array [.bool true, .bool false]), ("eqeqeq", .null)]) := by rfl
  obtain ⟨new, hat, hextended⟩ :=
    (merge_extends Sample.rules Sample.generated_tidy ["rules"]).1
      (.object [("semi", .bool true)]) rfl
  obtain rfl := Option.some.inj (hnew.symm.trans hat)
  exact ⟨hnew, hextended,
    (merge_extends Sample.rules Sample.generated_tidy ["root"]).2 rfl (.bool true) rfl⟩

end Merge

end Value

end ComponentAtlas.Json
