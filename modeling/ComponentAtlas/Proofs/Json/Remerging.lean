import ComponentAtlas.Proofs.Json.Merging

/-!
# Merging into what was written

A merged value is printed and read back before the same data are merged again. Where a number
stands, another one may be read, but data that hold no numbers find everything of theirs in its
place: the second merge changes nothing. In a new document such data stand alone.
-/

namespace ComponentAtlas.Json

/-- Values in which no number stands. -/
inductive Value.Numberless : Value → Prop where
  | null : Numberless .null
  | bool (b : Bool) : Numberless (.bool b)
  | string (s : String) : Numberless (.string s)
  | array {items : List Value} (h : ∀ v ∈ items, Numberless v) : Numberless (.array items)
  | object {fields : Fields} (h : ∀ f ∈ fields, Numberless f.2) : Numberless (.object fields)

section Parts

variable {fields other : Fields} {items : List Value} {located : List (String × Nat × Located)}
  {locatedItems : List Located} {key : String} {v : Value}

theorem SpellsItems.exists_of_mem (h : SpellsItems items locatedItems) (hv : v ∈ items) :
    ∃ l, Spells v l ∧ l.value ∈ Located.valuesOf locatedItems := by
  induction items generalizing locatedItems with
  | nil => cases hv
  | cons item items ih =>
      cases h with
      | @cons _ l _ _ hhead htail =>
          rcases List.mem_cons.mp hv with rfl | hv
          · exact ⟨l, hhead, List.mem_cons_self⟩
          · obtain ⟨l', hl', hmem⟩ := ih htail hv
            exact ⟨l', hl', List.mem_cons_of_mem _ hmem⟩

theorem SpellsFields.keys_eq (h : SpellsFields fields located) :
    (Located.pairsOf located).keys = fields.keys := by
  induction fields generalizing located with
  | nil =>
      cases h
      rfl
  | cons field fields ih =>
      cases h with
      | cons key colon hhead htail =>
          rw [Located.pairsOf, Fields.keys_cons, Fields.keys_cons, ih htail]

/-- The fields that are read are those that were written, in their order. -/
theorem SpellsFields.ofPairs_eq (h : SpellsFields fields located) (hkeys : fields.keys.Nodup) :
    Fields.ofPairs (Located.pairsOf located) = Located.pairsOf located :=
  Fields.ofPairs_of_nodup (h.keys_eq.symm ▸ hkeys)

theorem SpellsFields.get?_eq (h : SpellsFields fields located) (hget : fields.get? key = some v) :
    ∃ l, Spells v l ∧ (Located.pairsOf located).get? key = some l.value := by
  induction fields generalizing located with
  | nil => cases hget
  | cons field fields ih =>
      cases h with
      | @cons _ l _ _ k colon hhead htail =>
          rw [Fields.get?] at hget
          rw [Located.pairsOf, Fields.get?]
          split at hget
          · next hk =>
              cases hget
              exact ⟨l, hhead, if_pos hk⟩
          · next hk =>
              obtain ⟨l', hl', hread⟩ := ih htail hget
              exact ⟨l', hl', (if_neg hk).trans hread⟩

end Parts

section Same

variable {data v : Value} {l : Located}

theorem SpellsItems.same {items present : List Value} {located : List Located}
    (h : SpellsItems present located) (htidy : ∀ v ∈ present, v.Tidy)
    (ih : ∀ d ∈ items, ∀ v l, Spells v l → v.Tidy → v.same d = true → l.value.same d = true)
    (hsame : Value.sameItems present items = true) :
    Value.sameItems (Located.valuesOf located) items = true := by
  induction items generalizing present located with
  | nil =>
      cases h with
      | nil => rfl
      | cons => simp [Value.sameItems] at hsame
  | cons d items ihItems =>
      cases h with
      | nil => simp [Value.sameItems] at hsame
      | cons hhead htail =>
          rw [Value.sameItems, Bool.and_eq_true] at hsame
          obtain ⟨hv, htidy⟩ := List.forall_mem_cons.mp htidy
          obtain ⟨hd, hitems⟩ := List.forall_mem_cons.mp ih
          rw [Located.valuesOf, Value.sameItems, hd _ _ hhead hv hsame.1,
            ihItems htail htidy hitems hsame.2, Bool.and_self]

theorem SpellsFields.same {fields present : Fields} {located : List (String × Nat × Located)}
    (h : SpellsFields present located) (htidy : ∀ f ∈ present, f.2.Tidy)
    (ih : ∀ f ∈ fields, ∀ v l, Spells v l → v.Tidy → v.same f.2 = true → l.value.same f.2 = true)
    (hsame : Value.sameFields present fields = true) :
    Value.sameFields (Located.pairsOf located) fields = true := by
  induction present generalizing located with
  | nil =>
      cases h
      rfl
  | cons field present ihPresent =>
      cases h with
      | cons key colon hhead htail =>
          obtain ⟨hv, htidy⟩ := List.forall_mem_cons.mp htidy
          rw [Value.sameFields, Bool.and_eq_true] at hsame
          rw [Located.pairsOf, Value.sameFields, ihPresent htail htidy hsame.2, Bool.and_true]
          have hfirst := hsame.1
          cases hget : Fields.get? key fields with
          | none =>
              rw [hget] at hfirst
              cases hfirst
          | some d =>
              rw [hget] at hfirst
              exact ih _ (Fields.mem_of_get? hget) _ _ hhead hv hfirst

/-- What equals data without numbers is read as something that equals them. -/
theorem Spells.same (h : Spells v l) (htidy : v.Tidy) (hdata : data.Numberless)
    (hsame : v.same data = true) : l.value.same data = true := by
  induction hdata generalizing v l with
  | array _ ih =>
      cases h with
      | array at_ stop h =>
          rw [Value.same] at hsame
          rw [Located.value, Value.same]
          exact h.same htidy.listed (fun d hd v l hl hv => ih d hd hl hv) hsame
      | _ => simp [Value.same] at hsame
  | object _ ih =>
      cases h with
      | @object _ _ present located h =>
          rw [Value.same, Bool.and_eq_true] at hsame
          have hlength : (Located.pairsOf located).length = present.length := by
            simpa [Fields.keys] using congrArg List.length h.keys_eq
          rw [Located.value, h.ofPairs_eq htidy.of_object.1, Value.same, hlength, hsame.1,
            Bool.true_and]
          exact h.same htidy.of_object.2 (fun f hf v l hl hv => ih f hf hl hv) hsame.2
      | _ => simp [Value.same] at hsame
  | _ =>
      cases h with
      | number => simp [Value.same] at hsame
      | array => simp [Value.same] at hsame
      | object => simp [Value.same] at hsame
      | _ => exact hsame

theorem Value.Numberless.listed (h : data.Numberless) : ∀ v ∈ data.listed, v.Numberless := by
  cases h with
  | array h => exact h
  | _ => exact List.forall_mem_singleton.mpr (by constructor <;> assumption)

/-- Data that change nothing in a value change nothing in what is read of it. -/
theorem Spells.merge_unchanged (h : Spells v l) (htidy : v.Tidy) (hdata : data.Numberless)
    (hmerge : (v.merge data).2 = false) : (l.value.merge data).2 = false := by
  induction data using Value.fieldInduction generalizing v l with
  | step data ih =>
      cases h with
      | @object _ _ present located h =>
          cases data with
          | object fields =>
              rw [Located.value, h.ofPairs_eq htidy.of_object.1]
              refine Value.object_merge_unchanged_iff.mpr fun f hf => ?_
              obtain ⟨old, hold, hunchanged⟩ := Value.object_merge_unchanged_iff.mp hmerge f hf
              obtain ⟨l', hl', hread⟩ := h.get?_eq hold
              have hnumberless : f.2.Numberless := by
                cases hdata with
                | object hfields => exact hfields f hf
              exact ⟨_, hread, ih fields rfl f hf hl'
                (htidy.of_object.2 _ (Fields.mem_of_get? hold)) hnumberless hunchanged⟩
          | _ => simp [Located.value, Value.merge]
      | @array _ _ present located h =>
          by_cases hobject : data.object? = none
          · rw [Value.array_merge _ hobject] at hmerge
            rw [Located.value, Value.array_merge _ hobject]
            refine unionItems_unchanged_iff.mpr fun d hd => ?_
            obtain ⟨item, hitem, hsame⟩ :=
              List.any_eq_true.mp (unionItems_unchanged_iff.mp hmerge d hd)
            obtain ⟨l', hl', hmem⟩ := h.exists_of_mem hitem
            exact List.any_eq_true.mpr ⟨l'.value, hmem,
              hl'.same (htidy.listed item hitem) (hdata.listed d hd) hsame⟩
          · cases data with
            | object => simp [Located.value, Value.merge]
            | _ => exact absurd rfl hobject
      | _ =>
          cases data with
          | array => simp [Value.merge] at hmerge
          | _ => simp [Located.value, Value.merge]

end Same

/-- Data, nested at most to a depth, that can be merged into a document time and again. -/
structure Value.Mergeable (depth : Nat) (data : Value) : Prop where
  tidy : data.Tidy
  within : data.Within depth
  numberless : data.Numberless

namespace Value.Mergeable

variable {depth : Nat}

theorem bool (b : Bool) : Mergeable depth (.bool b) :=
  ⟨.bool b, .bool depth b, .bool b⟩

theorem string (s : String) : Mergeable depth (.string s) :=
  ⟨.string s, .string depth s, .string s⟩

theorem array {items : List Value} (h : ∀ v ∈ items, v.Mergeable depth) :
    Mergeable (depth + 1) (.array items) :=
  ⟨.array fun v hv => (h v hv).tidy, .array fun v hv => (h v hv).within,
    .array fun v hv => (h v hv).numberless⟩

theorem object {fields : Fields} (hkeys : fields.keys.Nodup)
    (h : ∀ f ∈ fields, f.2.Mergeable depth) : Mergeable (depth + 1) (.object fields) :=
  ⟨.object hkeys fun f hf => (h f hf).tidy, .object fun f hf => (h f hf).within,
    .object fun f hf => (h f hf).numberless⟩

end Value.Mergeable

/-- What was merged into a document, printed and read back changes nothing when it is merged
again. -/
theorem read_merge {base data : Value} (hbase : base.Within maxDepth) (htidy : base.Tidy)
    (hdata : data.Mergeable maxDepth) :
    ∃ v, Json.read ((base.merge data).1.pretty ++ "\n") = .ok v ∧ (v.merge data).2 = false := by
  obtain ⟨l, hread, hspells⟩ := readLocated_pretty (hbase.merge hdata.within)
  refine ⟨l.value, by rw [Json.read, hread]; rfl, ?_⟩
  exact hspells.merge_unchanged (htidy.merge hdata.tidy) hdata.numberless
    (Value.merge_merge hdata.tidy base)

section Fresh

variable {fields : Fields} {items : List Value} {v : Value} {l : Located}

theorem SpellsItems.values_eq {located : List Located} (h : SpellsItems items located)
    (ih : ∀ v ∈ items, ∀ l, Spells v l → l.value = v) : Located.valuesOf located = items := by
  induction items generalizing located with
  | nil =>
      cases h
      rfl
  | cons item items ihItems =>
      cases h with
      | cons hhead htail =>
          obtain ⟨hitem, hitems⟩ := List.forall_mem_cons.mp ih
          rw [Located.valuesOf, hitem _ hhead, ihItems htail hitems]

theorem SpellsFields.pairs_eq {located : List (String × Nat × Located)}
    (h : SpellsFields fields located) (ih : ∀ f ∈ fields, ∀ l, Spells f.2 l → l.value = f.2) :
    Located.pairsOf located = fields := by
  induction fields generalizing located with
  | nil =>
      cases h
      rfl
  | cons field fields ihFields =>
      cases h with
      | cons key colon hhead htail =>
          obtain ⟨hfield, hfields⟩ := List.forall_mem_cons.mp ih
          rw [Located.pairsOf, hfield _ hhead, ihFields htail hfields]

/-- What is written without numbers is read as itself. -/
theorem Spells.value_eq (hv : v.Numberless) (htidy : v.Tidy) (h : Spells v l) : l.value = v := by
  induction hv generalizing l with
  | array _ ih =>
      cases h with
      | array at_ stop h =>
          rw [Located.value, h.values_eq fun v hv l => ih v hv (htidy.listed v hv)]
  | object _ ih =>
      cases h with
      | object at_ stop h =>
          rw [Located.value, h.ofPairs_eq htidy.of_object.1,
            h.pairs_eq fun f hf l => ih f hf (htidy.of_object.2 f hf)]
  | _ =>
      cases h
      rfl

/-- Fields with new keys come behind those that are there. -/
theorem Value.mergeFields_eq_append (present : Fields) (h : (present ++ fields).keys.Nodup) :
    (mergeFields present fields).1 = present ++ fields := by
  induction fields generalizing present with
  | nil => rw [mergeFields, List.append_nil]
  | cons field more ih =>
      obtain ⟨key, value⟩ := field
      have hkey : key ∉ present.keys := by
        rw [Fields.keys, List.map_append, List.nodup_append] at h
        exact fun hmem => h.2.2 key hmem key List.mem_cons_self rfl
      have hnext : present ++ (key, value) :: more = (present ++ [(key, value)]) ++ more := by
        simp
      rw [mergeFields_cons, Fields.get?_eq_none hkey, Fields.set_of_not_mem hkey, hnext]
      exact ih _ (hnext ▸ h)

/-- What is merged into an empty document, printed and read back is the data alone. -/
theorem read_fresh (hdata : (Value.object fields).Mergeable maxDepth) :
    Json.read (((Value.object []).merge (.object fields)).1.pretty ++ "\n") =
      .ok (.object fields) := by
  have hfresh : ((Value.object []).merge (.object fields)).1 = .object fields := by
    rw [Value.object_merge_object, Value.mergeFields_eq_append [] hdata.tidy.of_object.1,
      List.nil_append]
  obtain ⟨l, hread, hspells⟩ := readLocated_pretty hdata.within
  rw [hfresh, Json.read, hread]
  exact congrArg Except.ok (hspells.value_eq hdata.numberless hdata.tidy)

end Fresh

end ComponentAtlas.Json
