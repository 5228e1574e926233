import ComponentAtlas.Proofs.Json.Acceptance

/-!
# Values that the reader makes

Whatever a text holds, a value that is read from it is nested no deeper than the reader allows, its
numbers are in range, and no key of an object in it is repeated.
-/

namespace ComponentAtlas.Json

section Fields

namespace Fields

variable {fields pairs : Fields} {key : String} {value : Value}

theorem keys_cons (key : String) (value : Value) (fields : Fields) :
    keys ((key, value) :: fields) = key :: fields.keys := rfl

theorem keys_set_of_mem (h : key ∈ fields.keys) : (fields.set key value).keys = fields.keys := by
  induction fields with
  | nil => cases h
  | cons field rest ih =>
      obtain ⟨k, v⟩ := field
      rw [set]
      split
      · rfl
      · next hne =>
          rw [keys_cons, List.mem_cons] at h
          rw [keys_cons, keys_cons, ih (h.resolve_left fun e => hne e.symm)]

theorem set_of_not_mem (h : key ∉ fields.keys) :
    fields.set key value = fields ++ [(key, value)] := by
  induction fields with
  | nil => rfl
  | cons field rest ih =>
      obtain ⟨k, v⟩ := field
      rw [keys_cons, List.mem_cons, not_or] at h
      rw [set, if_neg (fun e => h.1 e.symm), ih h.2]
      rfl

theorem nodup_keys_set (h : fields.keys.Nodup) (key : String) (value : Value) :
    (fields.set key value).keys.Nodup := by
  by_cases hmem : key ∈ fields.keys
  · rwa [keys_set_of_mem hmem]
  · rw [set_of_not_mem hmem, keys, List.map_append]
    refine List.nodup_append.mpr ⟨h, List.pairwise_singleton _ _, fun a ha b hb heq => ?_⟩
    obtain rfl := List.mem_singleton.mp hb
    exact hmem (heq ▸ ha)

theorem mem_set {f : String × Value} (h : f ∈ fields.set key value) :
    f ∈ fields ∨ f.2 = value := by
  induction fields with
  | nil => exact .inr (List.mem_singleton.mp h ▸ rfl)
  | cons field rest ih =>
      obtain ⟨k, v⟩ := field
      rw [set] at h
      split at h
      · rcases List.mem_cons.mp h with rfl | h
        · exact .inr rfl
        · exact .inl (List.mem_cons_of_mem _ h)
      · rcases List.mem_cons.mp h with rfl | h
        · exact .inl List.mem_cons_self
        · exact (ih h).imp_left (List.mem_cons_of_mem _)

theorem ofPairs_concat (pairs : Fields) (key : String) (value : Value) :
    ofPairs (pairs ++ [(key, value)]) = (ofPairs pairs).set key value := by
  rw [ofPairs, List.foldl_append]
  rfl

/-- No key is repeated in the fields of pairs. -/
theorem nodup_keys_ofPairs (pairs : Fields) : (ofPairs pairs).keys.Nodup := by
  induction pairs using List.reverseRecOn with
  | nil => exact List.nodup_nil
  | append_singleton pairs pair ih =>
      rw [ofPairs_concat]
      exact nodup_keys_set ih _ _

theorem mem_ofPairs {f : String × Value} (h : f ∈ ofPairs pairs) : ∃ p ∈ pairs, f.2 = p.2 := by
  induction pairs using List.reverseRecOn with
  | nil => cases h
  | append_singleton pairs pair ih =>
      rw [ofPairs_concat] at h
      rcases mem_set h with h | h
      · obtain ⟨p, hp, heq⟩ := ih h
        exact ⟨p, List.mem_append_left _ hp, heq⟩
      · exact ⟨pair, List.mem_append_right _ List.mem_cons_self, h⟩

/-- Pairs without a repeated key stay as they are. -/
theorem ofPairs_of_nodup (h : pairs.keys.Nodup) : ofPairs pairs = pairs := by
  induction pairs using List.reverseRecOn with
  | nil => rfl
  | append_singleton pairs pair ih =>
      rw [keys, List.map_append, List.nodup_append] at h
      rw [ofPairs_concat, ih h.1]
      exact set_of_not_mem fun hmem => h.2.2 _ hmem _ List.mem_cons_self rfl

end Fields

end Fields

/-- Values in which no object repeats a key. -/
inductive Value.Tidy : Value → Prop where
  | null : Tidy .null
  | bool (b : Bool) : Tidy (.bool b)
  | number (n : Number) : Tidy (.number n)
  | string (s : String) : Tidy (.string s)
  | array {items : List Value} (h : ∀ v ∈ items, Tidy v) : Tidy (.array items)
  | object {fields : Fields} (hkeys : fields.keys.Nodup) (h : ∀ f ∈ fields, Tidy f.2) :
      Tidy (.object fields)

mutual

/-- A located value is tidy: of a repeated key one field is left. -/
theorem Located.tidy_value (l : Located) : l.value.Tidy := by
  cases l with
  | null => exact .null
  | bool _ b => exact .bool b
  | number _ n => exact .number n
  | string _ s => exact .string s
  | array _ _ items => exact .array (tidy_valuesOf items)
  | object _ _ fields =>
      refine .object (Fields.nodup_keys_ofPairs _) fun f hf => ?_
      obtain ⟨p, hp, heq⟩ := Fields.mem_ofPairs hf
      exact heq ▸ tidy_pairsOf fields p hp

theorem Located.tidy_valuesOf (items : List Located) : ∀ v ∈ valuesOf items, v.Tidy := by
  cases items with
  | nil => exact fun v hv => (List.not_mem_nil hv).elim
  | cons item items => exact List.forall_mem_cons.mpr ⟨item.tidy_value, tidy_valuesOf items⟩

theorem Located.tidy_pairsOf (fields : List (String × Nat × Located)) :
    ∀ p ∈ pairsOf fields, p.2.Tidy := by
  cases fields with
  | nil => exact fun p hp => (List.not_mem_nil hp).elim
  | cons field fields =>
      obtain ⟨key, colon, value⟩ := field
      exact List.forall_mem_cons.mpr ⟨value.tidy_value, tidy_pairsOf fields⟩

end

section Numbers

variable {negative : Bool} {significand : Nat} {exponent : Int} {c after : Cursor} {n : Number}

theorem readDigits_le (rest : List Char) (offset : Nat) (full : Bool) (count dropped : Nat)
    (h : significand ≤ maxSignificand) :
    (readDigits significand rest offset full count dropped).1 ≤ maxSignificand := by
  induction rest generalizing significand offset full count dropped with
  | nil => exact h
  | cons d rest ih =>
      rw [readDigits]
      split
      · dsimp only
        split
        · exact ih _ _ _ _ h
        · next hlt => exact ih _ _ _ _ (Nat.le_of_not_lt fun hgt => hlt (.inr hgt))
      · exact h

theorem readable_makeBinary (h : makeBinary negative significand exponent c = .ok (n, after)) :
    Readable n := by
  unfold makeBinary at h
  dsimp only at h
  split at h
  · cases h
  · split at h
    · cases h
      exact .binary _
    · cases h

theorem readable_makeInteger (hle : significand ≤ maxSignificand)
    (h : makeInteger negative significand c = .ok (n, after)) : Readable n := by
  rw [makeInteger] at h
  split at h
  · cases h
    exact .natural hle
  · split at h
    · next hrange =>
        cases h
        exact .negative hrange.1 hrange.2
    · exact readable_makeBinary h

theorem readable_readExponent
    (h : readExponent negative significand exponent c = .ok (n, after)) : Readable n := by
  unfold readExponent at h
  dsimp only at h
  split at h
  · cases h
  · split at h
    · split at h
      · exact readable_makeBinary h
      · split_ifs at h
        · cases h
        · exact readable_makeBinary h
    · cases h

theorem readable_finishFraction
    (h : finishFraction negative significand exponent c = .ok (n, after)) : Readable n := by
  unfold finishFraction at h
  split at h
  · exact readable_readExponent h
  · exact readable_readExponent h
  · exact readable_makeBinary h

theorem readable_readFraction
    (h : readFraction negative significand exponent c = .ok (n, after)) : Readable n := by
  unfold readFraction at h
  dsimp only at h
  split at h
  · split at h <;> cases h
  · exact readable_finishFraction h

theorem readable_finishDigits {read : Nat × Nat × Nat × Cursor} (hle : read.1 ≤ maxSignificand)
    (h : finishDigits negative read = .ok (n, after)) : Readable n := by
  obtain ⟨significand, count, dropped, stop⟩ := read
  simp only [finishDigits] at h
  split at h
  · exact readable_readFraction h
  · exact readable_readExponent h
  · exact readable_readExponent h
  · split at h
    · exact readable_makeInteger hle h
    · exact readable_makeBinary h

/-- Every number that is read is in range. -/
theorem readable_readNumber (h : readNumber negative c = .ok (n, after)) : Readable n := by
  unfold readNumber at h
  split at h
  · cases h
  · split at h
    · cases h
    · split at h
      · next first _ _ _ _ =>
          change finishDigits negative (if first = '0' then (0, 1, 0, c.tail)
            else readDigits 0 c.rest c.offset false 0 0) = _ at h
          refine readable_finishDigits ?_ h
          split
          · exact Nat.zero_le _
          · exact readDigits_le _ _ _ _ _ (Nat.zero_le _)
      · cases h

end Numbers

/-- What a reader with some fuel makes is nested no deeper than it allows. -/
structure Bounds (fuel : Nat) : Prop where
  value {depth : Nat} {c after : Cursor} {l : Located}
    (h : readValue fuel depth c = .ok (l, after)) : l.value.Within depth
  items {depth : Nat} {first : Bool} {c after : Cursor} {items : List Located}
    (h : readItems fuel depth first c = .ok (items, after)) :
    ∀ v ∈ Located.valuesOf items, v.Within depth
  fields {depth : Nat} {first : Bool} {c after : Cursor} {fields : List (String × Nat × Located)}
    (h : readFields fuel depth first c = .ok (fields, after)) :
    ∀ p ∈ Located.pairsOf fields, p.2.Within depth
  field {depth : Nat} {c after : Cursor} {fields : List (String × Nat × Located)}
    (h : readField fuel depth c = .ok (fields, after)) :
    ∀ p ∈ Located.pairsOf fields, p.2.Within depth

namespace Bounds

variable {fuel depth : Nat} {first : Bool} {c after : Cursor} (ih : Bounds fuel)
include ih

theorem value_succ {l : Located} (h : readValue (fuel + 1) depth c = .ok (l, after)) :
    l.value.Within depth := by
  unfold readValue at h
  dsimp only at h
  split at h
  · cases h
  · obtain ⟨_, -, hl⟩ := bind_eq_ok h
    cases hl
    exact .null _
  · obtain ⟨_, -, hl⟩ := bind_eq_ok h
    cases hl
    exact .bool _ _
  · obtain ⟨_, -, hl⟩ := bind_eq_ok h
    cases hl
    exact .bool _ _
  · obtain ⟨⟨n, _⟩, hn, hl⟩ := bind_eq_ok h
    cases hl
    exact .number _ (readable_readNumber hn)
  · obtain ⟨_, -, hl⟩ := bind_eq_ok h
    cases hl
    exact .string _ _
  · split at h
    · cases h
    · obtain ⟨⟨items, _⟩, hitems, hl⟩ := bind_eq_ok h
      cases hl
      exact .array (ih.items hitems)
  · split at h
    · cases h
    · obtain ⟨⟨fields, _⟩, hfields, hl⟩ := bind_eq_ok h
      cases hl
      refine .object fun f hf => ?_
      obtain ⟨p, hp, heq⟩ := Fields.mem_ofPairs hf
      exact heq ▸ ih.fields hfields p hp
  · split at h
    · obtain ⟨⟨n, _⟩, hn, hl⟩ := bind_eq_ok h
      cases hl
      exact .number _ (readable_readNumber hn)
    · cases h

theorem item {items : List Located}
    (h : (do
      let (item, c) ← readValue fuel depth c
      let (items, c) ← readItems fuel depth false c
      .ok (item :: items, c)) = .ok (items, after)) :
    ∀ v ∈ Located.valuesOf items, v.Within depth := by
  obtain ⟨⟨l, middle⟩, hvalue, h⟩ := bind_eq_ok h
  obtain ⟨⟨ls, stop⟩, hmore, h⟩ := bind_eq_ok h
  cases h
  exact List.forall_mem_cons.mpr ⟨ih.value hvalue, ih.items hmore⟩

theorem items_succ {items : List Located}
    (h : readItems (fuel + 1) depth first c = .ok (items, after)) :
    ∀ v ∈ Located.valuesOf items, v.Within depth := by
  unfold readItems at h
  dsimp only at h
  split at h
  · cases h
  · cases h
    exact fun v hv => (List.not_mem_nil hv).elim
  · split at h
    · exact ih.item h
    · split at h
      · split at h
        · cases h
        · cases h
        · exact ih.item h
      · cases h

theorem field_succ {fields : List (String × Nat × Located)}
    (h : readField (fuel + 1) depth c = .ok (fields, after)) :
    ∀ p ∈ Located.pairsOf fields, p.2.Within depth := by
  unfold readField at h
  obtain ⟨⟨key, behind⟩, -, h⟩ := bind_eq_ok h
  dsimp only at h
  split at h
  · cases h
  · obtain ⟨⟨l, middle⟩, hvalue, h⟩ := bind_eq_ok h
    obtain ⟨⟨ls, stop⟩, hmore, h⟩ := bind_eq_ok h
    cases h
    exact List.forall_mem_cons.mpr ⟨ih.value hvalue, ih.fields hmore⟩
  · cases h

theorem fields_succ {fields : List (String × Nat × Located)}
    (h : readFields (fuel + 1) depth first c = .ok (fields, after)) :
    ∀ p ∈ Located.pairsOf fields, p.2.Within depth := by
  unfold readFields at h
  dsimp only at h
  split at h
  · cases h
  · cases h
    exact fun p hp => (List.not_mem_nil hp).elim
  · split at h
    · split at h
      · exact ih.field h
      · cases h
    · split at h
      · split at h
        · cases h
        · exact ih.field h
        · cases h
        · cases h
      · cases h

end Bounds

theorem bounds (fuel : Nat) : Bounds fuel := by
  induction fuel with
  | zero =>
      refine ⟨fun h => ?_, fun h => ?_, fun h => ?_, fun h => ?_⟩
      · simp [readValue, Cursor.fail] at h
      · simp [readItems, Cursor.fail] at h
      · simp [readFields, Cursor.fail] at h
      · simp [readField, Cursor.fail] at h
  | succ fuel ih => exact ⟨ih.value_succ, ih.items_succ, ih.fields_succ, ih.field_succ⟩

/-- A value that is read is one that the reader would accept, without a repeated key. -/
theorem read_spec {text : String} {v : Value} (h : Json.read text = .ok v) :
    v.Within maxDepth ∧ v.Tidy := by
  rw [Json.read] at h
  cases hlocated : readLocated text with
  | error e =>
      rw [hlocated] at h
      cases h
  | ok l =>
      rw [hlocated] at h
      cases h
      refine ⟨?_, l.tidy_value⟩
      obtain ⟨⟨l', after⟩, hvalue, hread⟩ := bind_eq_ok hlocated
      dsimp only at hread
      split at hread
      · cases hread
        exact (bounds _).value hvalue
      · cases hread

end ComponentAtlas.Json
