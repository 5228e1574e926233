import ComponentAtlas.Proofs.Json.Acceptance
import ComponentAtlas.Proofs.Tag.Stored
import Mathlib.Data.List.Nodup

/-!
# Tags that are found again

A decoder restores values when it finds each of them where it was written. Numbers are restored
below the bound of their decoder, and so are the records made up of them: a written list of tags
with times and spans in range is read as that list.
-/

namespace ComponentAtlas

open ComponentAtlas.Json ComponentAtlas.Text

namespace Json

/-- A decoder that finds the values with a property where they are written. -/
def Restores {α : Type} (p : α → Prop) (encode : α → Value) (decode : Located → Option α) : Prop :=
  ∀ (a : α) (l : Located), p a → Spells (encode a) l → decode l = some a

namespace Restores

theorem string : Restores (fun _ => True) .string Located.string? := by
  intro s l _ hl
  cases hl with
  | string at_ s => rfl

theorem below {bound : Nat} (h : bound ≤ maxSignificand + 1) :
    Restores (· < bound) .ofNat (Located.below? bound) := by
  intro n l hn hl
  cases hl with
  | number at_ hspelled =>
      cases hspelled with
      | natural n => exact if_pos hn
      | other hlarge _ =>
          exact absurd (Nat.lt_of_lt_of_le hn h) (Nat.not_lt.mpr (hlarge n rfl))

theorem word {α : Type} {write : α → String} {read : String → Option α}
    (hword : ∀ a, read (write a) = some a) :
    Restores (fun _ => True) (fun a => .string (write a)) (Located.word? read) := by
  intro a l _ hl
  cases hl with
  | string at_ s => exact hword a

theorem items {α : Type} {p : α → Prop} {encode : α → Value} {decode : Located → Option α}
    (h : Restores p encode decode) :
    Restores (fun as => ∀ a ∈ as, p a) (fun as => .array (as.map encode))
      (Located.items? decode) := by
  intro as l has hl
  cases hl with
  | @array _ _ _ located hitems =>
      change located.mapM decode = some as
      induction as generalizing located with
      | nil =>
          cases hitems with
          | nil => rfl
      | cons a as ih =>
          obtain ⟨ha, has⟩ := List.forall_mem_cons.mp has
          cases hitems with
          | cons hhead htail => rw [List.mapM_cons, h a _ ha hhead, ih has htail]; rfl

end Restores

namespace Record

theorem keys_of_spells {fields : Fields} {located : List (String × Nat × Located)}
    (h : SpellsFields fields located) : located.map (·.1) = fields.map (·.1) := by
  induction fields generalizing located with
  | nil =>
      cases h with
      | nil => rfl
  | cons field fields ih =>
      cases h with
      | cons key colon hhead htail => rw [List.map_cons, List.map_cons, ih htail]

theorem length_occurrences (key : String) (located : List (String × Nat × Located)) :
    (occurrences key located).length = (located.map (·.1)).count key := by
  induction located with
  | nil => rfl
  | cons field located ih =>
      unfold occurrences at ih ⊢
      rw [List.filterMap_cons, List.map_cons, List.count_cons]
      by_cases hkey : field.1 = key
      · simp [hkey, ih]
      · simp [hkey, ih]

/-- Fields of which no key stands twice make up a record for any keys. -/
theorem ofFields?_of_nodup {located : List (String × Nat × Located)}
    (h : (located.map (·.1)).Nodup) (keys : List String) :
    ∃ values, ofFields? located keys = some values := by
  induction keys with
  | nil => exact ⟨[], rfl⟩
  | cons key keys ih =>
      obtain ⟨rest, hrest⟩ := ih
      have hlength := List.nodup_iff_count_le_one.mp h key
      rw [← length_occurrences] at hlength
      rw [ofFields?, hrest]
      generalize occurrences key located = values at hlength
      rcases values with - | ⟨v, - | ⟨w, more⟩⟩
      · exact ⟨_, rfl⟩
      · exact ⟨_, rfl⟩
      · exact absurd hlength (by simp)

/-- An object that was written with different keys is read as its record. -/
theorem exists_of_spells {fields : Fields} {l : Located} (hl : Spells (.object fields) l)
    (hfields : (fields.map (·.1)).Nodup) (keys : List String) :
    ∃ r, ofLocated? keys l = some r ∧ r.positional = false ∧ r.Of keys fields := by
  obtain ⟨values, hvalues⟩ : ∃ values, ofLocated? keys l = some ⟨false, values⟩ := by
    cases hl with
    | @object _ _ _ located hfields' =>
        rw [← keys_of_spells hfields'] at hfields
        obtain ⟨values, hvalues⟩ := ofFields?_of_nodup hfields keys
        exact ⟨values, by rw [ofLocated?, hvalues]; rfl⟩
  exact ⟨_, hvalues, rfl, of_ofLocated? hl hvalues⟩

theorem complete?_of_spells {fields : Fields} {l : Located} (hl : Spells (.object fields) l)
    (hfields : (fields.map (·.1)).Nodup) (keys : List String) :
    ∃ r, complete? keys l = some r ∧ r.Of keys fields := by
  obtain ⟨r, hr, hpositional, hof⟩ := exists_of_spells hl hfields keys
  refine ⟨r, ?_, hof⟩
  rw [complete?, hr, Option.filter_some, hpositional]
  rfl

section Fields

variable {α : Type} {p : α → Prop} {encode : α → Value} {decode : Located → Option α} {r : Record}
  {keys : List String} {fields : Fields}

theorem Of.required_eq (hr : r.Of keys fields) (hd : Restores p encode decode) (key : String)
    {a : α} (ha : p a) (hkey : key ∈ keys) (hv : (key, encode a) ∈ fields) :
    r.required? key decode = some a := by
  obtain ⟨l, hl, hspells⟩ := hr key hkey _ hv
  rw [required?, hl, Option.bind_some]
  exact hd a l ha hspells

theorem Of.optional_eq (hr : r.Of keys fields) (hd : Restores p encode decode) (key : String)
    {a : Option α} (ha : ∀ b ∈ a, p b) (hkey : key ∈ keys)
    (hv : (key, .ofOption encode a) ∈ fields) (hnull : ∀ a, encode a ≠ .null) :
    r.optional? key decode = some a := by
  obtain ⟨l, hl, hspells⟩ := hr key hkey _ hv
  rw [optional?, hl]
  cases a with
  | none =>
      cases hspells with
      | null at_ => rfl
  | some a =>
      change Spells (encode a) l at hspells
      split
      · next heq => cases heq
      · next heq =>
          cases heq
          generalize hvalue : encode a = v at hspells
          cases hspells
          exact absurd hvalue (hnull a)
      · next heq =>
          cases heq
          rw [hd a l (ha a rfl) hspells, Option.map_some]

end Fields

end Record

end Json

/-- A span whose line and column numbers are in range. -/
structure Text.Span.Fits (s : Span) : Prop where
  startLine : s.startLine < positionBound
  startCol : s.startCol < positionBound
  endLine : s.endLine < positionBound
  endCol : s.endCol < positionBound

/-- A tag whose time and spans are in range. -/
structure Tag.Fits (t : Tag) : Prop where
  modifiedAt : t.modifiedAt < timeBound
  declaration : ∀ s ∈ t.declaration, s.Fits
  attributes : ∀ a ∈ t.attributes, ∀ s ∈ a.location, s.Fits
  members : ∀ m ∈ t.members, ∀ s ∈ m.location, s.Fits

namespace Stored

theorem restores_position : Restores (· < positionBound) .ofNat (Located.below? positionBound) :=
  .below (by decide)

theorem restores_span : Restores Span.Fits spanValue readSpan? := by
  intro s l hs hl
  obtain ⟨r, hr, hof⟩ := Record.complete?_of_spells hl (by simp)
    ["startLine", "startCol", "endLine", "endCol"]
  have h₁ := hof.required_eq restores_position "startLine" hs.startLine (by simp) (by simp)
  have h₂ := hof.required_eq restores_position "startCol" hs.startCol (by simp) (by simp)
  have h₃ := hof.required_eq restores_position "endLine" hs.endLine (by simp) (by simp)
  have h₄ := hof.required_eq restores_position "endCol" hs.endCol (by simp) (by simp)
  simp only [readSpan?, hr, h₁, h₂, h₃, h₄, Option.bind_eq_bind, Option.bind_some, Option.pure_def]

theorem restores_member :
    Restores (fun m => ∀ s ∈ m.location, s.Fits) memberValue readMember? := by
  intro m l hm hl
  obtain ⟨r, hr, hof⟩ := Record.complete?_of_spells hl (by simp)
    ["name", "kind", "origin", "documentation", "type", "location"]
  have h₁ := hof.required_eq .string "name" (a := m.name) trivial (by simp) (by simp)
  have h₂ := hof.required_eq (.word MemberKind.ofWord?_word) "kind" (a := m.kind) trivial
    (by simp) (by simp)
  have h₃ := hof.required_eq (.word Origin.ofWord?_word) "origin" (a := m.origin) trivial
    (by simp) (by simp)
  have h₄ := hof.optional_eq .string "documentation" (a := m.documentation)
    (fun _ _ => trivial) (by simp) (by simp) string_ne_null
  have h₅ := hof.optional_eq .string "type" (a := m.type) (fun _ _ => trivial) (by simp)
    (by simp) string_ne_null
  have h₆ := hof.optional_eq restores_span "location" hm (by simp) (by simp)
    spanValue_ne_null
  simp only [readMember?, hr, h₁, h₂, h₃, h₄, h₅, h₆, Option.bind_eq_bind, Option.bind_some,
    Option.pure_def]

theorem restores_attribute :
    Restores (fun a => ∀ s ∈ a.location, s.Fits) attributeValue readAttribute? := by
  intro a l ha hl
  obtain ⟨r, hr, hof⟩ := Record.complete?_of_spells hl (by simp)
    ["name", "sourceName", "documentation", "kind", "origin", "type", "location"]
  have h₁ := hof.required_eq .string "name" (a := a.name) trivial (by simp) (by simp)
  have h₂ := hof.required_eq .string "sourceName" (a := a.sourceName) trivial (by simp) (by simp)
  have h₃ := hof.optional_eq .string "documentation" (a := a.documentation)
    (fun _ _ => trivial) (by simp) (by simp) string_ne_null
  have h₄ := hof.required_eq (.word MemberKind.ofWord?_word) "kind" (a := a.kind) trivial
    (by simp) (by simp)
  have h₅ := hof.required_eq (.word Origin.ofWord?_word) "origin" (a := a.origin) trivial
    (by simp) (by simp)
  have h₆ := hof.optional_eq .string "type" (a := a.type) (fun _ _ => trivial) (by simp)
    (by simp) string_ne_null
  have h₇ := hof.optional_eq restores_span "location" ha (by simp) (by simp)
    spanValue_ne_null
  simp only [readAttribute?, hr, h₁, h₂, h₃, h₄, h₅, h₆, h₇, Option.bind_eq_bind, Option.bind_some,
    Option.pure_def]

theorem restores_tag : Restores Tag.Fits tagValue readTag? := by
  intro t l ht hl
  obtain ⟨r, hr, hpositional, hof⟩ := Record.exists_of_spells hl (by simp) tagKeys
  have hrecord : (Record.ofLocated? tagKeys l).filter (fun r => !r.positional) = some r := by
    rw [hr, Option.filter_some, hpositional]
    rfl
  have h₁ := hof.required_eq .string "namespace" (a := t.identity.space) trivial
    (by simp [tagKeys]) (by simp)
  have h₂ := hof.required_eq .string "name" (a := t.identity.localName) trivial
    (by simp [tagKeys]) (by simp)
  have h₃ := hof.required_eq (.word Delimiter.ofWord?_word) "delimiter"
    (a := t.identity.delimiter) trivial (by simp [tagKeys]) (by simp)
  have h₄ := hof.required_eq (.word Dialect.ofWord?_word) "dialect" (a := t.dialect)
    trivial (by simp [tagKeys]) (by simp)
  have h₅ := hof.required_eq .string "file" (a := t.file.text) trivial (by simp [tagKeys]) (by simp)
  have h₆ := hof.required_eq (.below (by decide)) "modifiedAt" ht.modifiedAt
    (by simp [tagKeys]) (by simp)
  have h₇ := hof.optional_eq .string "documentation" (a := t.documentation)
    (fun _ _ => trivial) (by simp [tagKeys]) (by simp) string_ne_null
  have h₈ := hof.optional_eq restores_span "declaration" ht.declaration
    (by simp [tagKeys]) (by simp) spanValue_ne_null
  have h₉ := hof.required_eq restores_attribute.items "attributes" ht.attributes
    (by simp [tagKeys]) (by simp)
  have h₁₀ := hof.required_eq restores_member.items "members" ht.members
    (by simp [tagKeys]) (by simp)
  simp only [readTag?, hrecord, h₁, h₂, h₃, h₄, h₅, h₆, h₇, h₈, h₉, h₁₀, Option.bind_eq_bind,
    Option.bind_some, Option.pure_def]

section Within

theorem within_ofOption {α : Type} {f : α → Value} {depth : Nat} {o : Option α}
    (h : ∀ a ∈ o, (f a).Within depth) : (Value.ofOption f o).Within depth := by
  cases o with
  | none => exact .null _
  | some a => exact h a rfl

theorem within_array {α : Type} {f : α → Value} {depth : Nat} {as : List α}
    (h : ∀ a ∈ as, (f a).Within depth) : (Value.array (as.map f)).Within (depth + 1) := by
  refine .array fun v hv => ?_
  obtain ⟨a, ha, rfl⟩ := List.mem_map.mp hv
  exact h a ha

theorem within_position {n : Nat} (h : n < positionBound) (depth : Nat) :
    (Value.ofNat n).Within depth :=
  .number depth (.natural (Nat.le_trans (Nat.le_of_lt h) (by decide)))

theorem within_span {s : Span} (h : s.Fits) (depth : Nat) : (spanValue s).Within (depth + 1) := by
  refine .object fun f hf => ?_
  simp only [List.mem_cons, List.not_mem_nil, or_false] at hf
  rcases hf with rfl | rfl | rfl | rfl
  · exact within_position h.startLine _
  · exact within_position h.startCol _
  · exact within_position h.endLine _
  · exact within_position h.endCol _

theorem within_member {m : Member} (h : ∀ s ∈ m.location, s.Fits) (depth : Nat) :
    (memberValue m).Within (depth + 2) := by
  refine .object fun f hf => ?_
  simp only [List.mem_cons, List.not_mem_nil, or_false] at hf
  rcases hf with rfl | rfl | rfl | rfl | rfl | rfl
  · exact .string _ _
  · exact .string _ _
  · exact .string _ _
  · exact within_ofOption fun _ _ => .string _ _
  · exact within_ofOption fun _ _ => .string _ _
  · exact within_ofOption fun s hs => within_span (h s hs) _

theorem within_attribute {a : Attribute} (h : ∀ s ∈ a.location, s.Fits) (depth : Nat) :
    (attributeValue a).Within (depth + 2) := by
  refine .object fun f hf => ?_
  simp only [List.mem_cons, List.not_mem_nil, or_false] at hf
  rcases hf with rfl | rfl | rfl | rfl | rfl | rfl | rfl
  · exact .string _ _
  · exact .string _ _
  · exact within_ofOption fun _ _ => .string _ _
  · exact .string _ _
  · exact .string _ _
  · exact within_ofOption fun _ _ => .string _ _
  · exact within_ofOption fun s hs => within_span (h s hs) _

theorem within_tag {t : Tag} (h : t.Fits) (depth : Nat) : (tagValue t).Within (depth + 4) := by
  refine .object fun f hf => ?_
  simp only [List.mem_cons, List.not_mem_nil, or_false] at hf
  rcases hf with rfl | rfl | rfl | rfl | rfl | rfl | rfl | rfl | rfl | rfl
  · exact .string _ _
  · exact .string _ _
  · exact .string _ _
  · exact .string _ _
  · exact .string _ _
  · exact .number _ (.natural (Nat.le_of_lt_succ h.modifiedAt))
  · exact within_ofOption fun _ _ => .string _ _
  · exact within_ofOption fun s hs => within_span (h.declaration s hs) _
  · exact within_array fun a ha => within_attribute (h.attributes a ha) _
  · exact within_array fun m hm => within_member (h.members m hm) _

end Within

/-- A written list of tags in range is read as that list. -/
theorem readTags?_of_fits {tags : List Tag} (h : ∀ t ∈ tags, t.Fits) :
    readTags? (writeTags tags) = some tags := by
  have hwithin : (Value.array (tags.map tagValue)).Within maxDepth :=
    within_array fun t ht => within_tag (h t ht) 122
  obtain ⟨l, hl, hspells⟩ := readLocated_pretty hwithin
  rw [readTags?, writeTags, hl]
  exact restores_tag.items tags l h hspells

end Stored

end ComponentAtlas
