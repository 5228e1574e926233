import ComponentAtlas.Proofs.Json.Reread
import ComponentAtlas.Tag.Stored

/-!
# Stored tags that are read back

A decoder inverts an encoder when it finds nothing else where a value was written. The decoders of
the parts of a tag invert their encoders, and so do those of the records that they make up: a list
of tags that is read where one was written is that list.
-/

namespace ComponentAtlas

open ComponentAtlas.Json ComponentAtlas.Text

namespace Json

/-- A decoder that finds nothing else than what was written. -/
def Inverts {α : Type} (encode : α → Value) (decode : Located → Option α) : Prop :=
  ∀ (a b : α) (l : Located), Spells (encode a) l → decode l = some b → b = a

namespace Inverts

theorem string : Inverts .string Located.string? := by
  intro s t l hl h
  cases hl with
  | string at_ s => exact (Option.some.inj h).symm

theorem below (bound : Nat) : Inverts .ofNat (Located.below? bound) := by
  intro n m l hl h
  unfold Located.below? at h
  cases hl with
  | number at_ hn =>
      cases hn with
      | natural n =>
          dsimp only at h
          split at h
          · exact (Option.some.inj h).symm
          · cases h
      | other _ hother =>
          split at h
          · next heq =>
              cases heq
              exact absurd rfl (hother _)
          · cases h

theorem word {α : Type} {write : α → String} {read : String → Option α}
    (hword : ∀ a, read (write a) = some a) :
    Inverts (fun a => .string (write a)) (Located.word? read) := by
  intro a b l hl h
  cases hl with
  | string at_ s => exact Option.some.inj (h.symm.trans (hword a))

theorem items {α : Type} {encode : α → Value} {decode : Located → Option α}
    (h : Inverts encode decode) :
    Inverts (fun as => .array (as.map encode)) (Located.items? decode) := by
  intro as bs l hl hread
  cases hl with
  | @array _ _ _ located hitems =>
      change located.mapM decode = some bs at hread
      induction as generalizing located bs with
      | nil =>
          cases hitems with
          | nil => simpa using hread.symm
      | cons a as ih =>
          cases hitems with
          | cons hhead htail =>
              rw [List.mapM_cons] at hread
              obtain ⟨b, hb, hread⟩ := Option.bind_eq_some_iff.mp hread
              obtain ⟨rest, hrest, hread⟩ := Option.bind_eq_some_iff.mp hread
              cases hread
              rw [h a b _ hhead hb, ih rest htail hrest]

end Inverts

/-- A record that is read where an object was written. -/
def Record.Of (r : Record) (keys : List String) (fields : Fields) : Prop :=
  ∀ key ∈ keys, ∀ v, (key, v) ∈ fields → ∃ l, r.value? key = some l ∧ Spells v l

namespace Record

/-- The value of a field stands among those of its key. -/
theorem mem_occurrences {fields : Fields} {located : List (String × Nat × Located)}
    (h : SpellsFields fields located) {key : String} {v : Value} (hv : (key, v) ∈ fields) :
    ∃ l ∈ occurrences key located, Spells v l := by
  induction fields generalizing located with
  | nil => cases hv
  | cons field fields ih =>
      cases h with
      | @cons w l _ located key' colon hhead htail =>
          rcases List.mem_cons.mp hv with heq | hmem
          · cases heq
            exact ⟨l, by simp [occurrences], hhead⟩
          · obtain ⟨l', hl', hspells⟩ := ih htail hmem
            refine ⟨l', ?_, hspells⟩
            unfold occurrences at hl' ⊢
            rw [List.mem_filterMap] at hl' ⊢
            obtain ⟨entry, hentry, hkey⟩ := hl'
            exact ⟨entry, List.mem_cons_of_mem _ hentry, hkey⟩

theorem find?_of_ofFields? {located : List (String × Nat × Located)} {keys : List String}
    {values : List (String × Option Located)} (h : ofFields? located keys = some values)
    {key : String} (hkey : key ∈ keys) {l : Located} (hl : l ∈ occurrences key located) :
    (values.find? fun entry => entry.1 == key).bind (·.2) = some l := by
  induction keys generalizing values with
  | nil => cases hkey
  | cons first rest ih =>
      rw [ofFields?] at h
      split at h
      · next hnone hrest =>
          cases h
          have hne : first ≠ key := by
            rintro rfl
            rw [hnone] at hl
            cases hl
          rw [List.find?_cons_of_neg (by simpa using hne)]
          exact ih hrest ((List.mem_cons.mp hkey).resolve_left (Ne.symm hne))
      · next v _ hone hrest =>
          cases h
          by_cases hfirst : first = key
          · subst hfirst
            rw [hone, List.mem_singleton] at hl
            simp [hl]
          · rw [List.find?_cons_of_neg (by simpa using hfirst)]
            exact ih hrest ((List.mem_cons.mp hkey).resolve_left (Ne.symm hfirst))
      · cases h

/-- An object that was written is read as its record. -/
theorem of_ofLocated? {keys : List String} {fields : Fields} {l : Located} {r : Record}
    (hl : Spells (.object fields) l) (h : ofLocated? keys l = some r) : r.Of keys fields := by
  cases hl with
  | object at_ stop hfields =>
      obtain ⟨values, hvalues, rfl⟩ := Option.map_eq_some_iff.mp h
      intro key hkey v hv
      obtain ⟨l, hl, hspells⟩ := mem_occurrences hfields hv
      exact ⟨l, find?_of_ofFields? hvalues hkey hl, hspells⟩

theorem of_complete? {keys : List String} {fields : Fields} {l : Located} {r : Record}
    (hl : Spells (.object fields) l) (h : complete? keys l = some r) : r.Of keys fields :=
  of_ofLocated? hl (Option.filter_eq_some_iff.mp h).1

section Fields

variable {α : Type} {encode : α → Value} {decode : Located → Option α} {r : Record}
  {keys : List String} {fields : Fields}

theorem Of.required (hr : r.Of keys fields) (hd : Inverts encode decode) {key : String} {a b : α}
    (h : r.required? key decode = some b) (hkey : key ∈ keys) (hv : (key, encode a) ∈ fields) :
    b = a := by
  obtain ⟨l, hl, hspells⟩ := hr key hkey _ hv
  rw [required?, hl] at h
  exact hd a b l hspells h

theorem Of.optional (hr : r.Of keys fields) (hd : Inverts encode decode) {key : String}
    {a b : Option α} (h : r.optional? key decode = some b) (hkey : key ∈ keys)
    (hv : (key, .ofOption encode a) ∈ fields) (hnull : ∀ a, encode a ≠ .null) : b = a := by
  obtain ⟨l, hl, hspells⟩ := hr key hkey _ hv
  rw [optional?, hl] at h
  cases a with
  | none =>
      cases hspells with
      | null at_ => exact (Option.some.inj h).symm
  | some a =>
      change Spells (encode a) l at hspells
      split at h
      · next heq => cases heq
      · next heq =>
          cases heq
          generalize hvalue : encode a = v at hspells
          cases hspells
          exact absurd hvalue (hnull a)
      · next heq =>
          cases heq
          obtain ⟨c, hc, rfl⟩ := Option.map_eq_some_iff.mp h
          rw [hd a c l hspells hc]

end Fields

end Record

end Json

namespace Stored

theorem inverts_span : Inverts spanValue readSpan? := by
  intro s t l hl h
  obtain ⟨r, hr, h⟩ := Option.bind_eq_some_iff.mp h
  obtain ⟨startLine, h₁, h⟩ := Option.bind_eq_some_iff.mp h
  obtain ⟨startCol, h₂, h⟩ := Option.bind_eq_some_iff.mp h
  obtain ⟨endLine, h₃, h⟩ := Option.bind_eq_some_iff.mp h
  obtain ⟨endCol, h₄, h⟩ := Option.bind_eq_some_iff.mp h
  have hof := Record.of_complete? hl hr
  cases h
  rw [hof.required (.below _) h₁ (a := s.startLine) (by simp) (by simp),
    hof.required (.below _) h₂ (a := s.startCol) (by simp) (by simp),
    hof.required (.below _) h₃ (a := s.endLine) (by simp) (by simp),
    hof.required (.below _) h₄ (a := s.endCol) (by simp) (by simp)]

theorem spanValue_ne_null (s : Span) : spanValue s ≠ .null :=
  nofun

theorem string_ne_null (s : String) : Value.string s ≠ .null :=
  nofun

theorem inverts_member : Inverts memberValue readMember? := by
  intro m n l hl h
  obtain ⟨r, hr, h⟩ := Option.bind_eq_some_iff.mp h
  obtain ⟨name, h₁, h⟩ := Option.bind_eq_some_iff.mp h
  obtain ⟨kind, h₂, h⟩ := Option.bind_eq_some_iff.mp h
  obtain ⟨origin, h₃, h⟩ := Option.bind_eq_some_iff.mp h
  obtain ⟨documentation, h₄, h⟩ := Option.bind_eq_some_iff.mp h
  obtain ⟨type, h₅, h⟩ := Option.bind_eq_some_iff.mp h
  obtain ⟨location, h₆, h⟩ := Option.bind_eq_some_iff.mp h
  have hof := Record.of_complete? hl hr
  cases h
  rw [hof.required .string h₁ (a := m.name) (by simp) (by simp),
    hof.required (.word MemberKind.ofWord?_word) h₂ (a := m.kind) (by simp) (by simp),
    hof.required (.word Origin.ofWord?_word) h₃ (a := m.origin) (by simp) (by simp),
    hof.optional .string h₄ (a := m.documentation) (by simp) (by simp) string_ne_null,
    hof.optional .string h₅ (a := m.type) (by simp) (by simp) string_ne_null,
    hof.optional inverts_span h₆ (a := m.location) (by simp) (by simp) spanValue_ne_null]

theorem inverts_attribute : Inverts attributeValue readAttribute? := by
  intro m n l hl h
  obtain ⟨r, hr, h⟩ := Option.bind_eq_some_iff.mp h
  obtain ⟨name, h₁, h⟩ := Option.bind_eq_some_iff.mp h
  obtain ⟨sourceName, h₂, h⟩ := Option.bind_eq_some_iff.mp h
  obtain ⟨documentation, h₃, h⟩ := Option.bind_eq_some_iff.mp h
  obtain ⟨kind, h₄, h⟩ := Option.bind_eq_some_iff.mp h
  obtain ⟨origin, h₅, h⟩ := Option.bind_eq_some_iff.mp h
  obtain ⟨type, h₆, h⟩ := Option.bind_eq_some_iff.mp h
  obtain ⟨location, h₇, h⟩ := Option.bind_eq_some_iff.mp h
  have hof := Record.of_complete? hl hr
  cases h
  rw [hof.required .string h₁ (a := m.name) (by simp) (by simp),
    hof.required .string h₂ (a := m.sourceName) (by simp) (by simp),
    hof.optional .string h₃ (a := m.documentation) (by simp) (by simp) string_ne_null,
    hof.required (.word MemberKind.ofWord?_word) h₄ (a := m.kind) (by simp) (by simp),
    hof.required (.word Origin.ofWord?_word) h₅ (a := m.origin) (by simp) (by simp),
    hof.optional .string h₆ (a := m.type) (by simp) (by simp) string_ne_null,
    hof.optional inverts_span h₇ (a := m.location) (by simp) (by simp) spanValue_ne_null]

theorem inverts_tag : Inverts tagValue readTag? := by
  intro t u l hl h
  obtain ⟨r, hr, h⟩ := Option.bind_eq_some_iff.mp h
  obtain ⟨space, h₁, h⟩ := Option.bind_eq_some_iff.mp h
  obtain ⟨localName, h₂, h⟩ := Option.bind_eq_some_iff.mp h
  obtain ⟨delimiter, h₃, h⟩ := Option.bind_eq_some_iff.mp h
  obtain ⟨dialect, h₄, h⟩ := Option.bind_eq_some_iff.mp h
  obtain ⟨file, h₅, h⟩ := Option.bind_eq_some_iff.mp h
  obtain ⟨modifiedAt, h₆, h⟩ := Option.bind_eq_some_iff.mp h
  obtain ⟨documentation, h₇, h⟩ := Option.bind_eq_some_iff.mp h
  obtain ⟨declaration, h₈, h⟩ := Option.bind_eq_some_iff.mp h
  obtain ⟨attributes, h₉, h⟩ := Option.bind_eq_some_iff.mp h
  obtain ⟨members, h₁₀, h⟩ := Option.bind_eq_some_iff.mp h
  have hof := Record.of_ofLocated? hl (Option.filter_eq_some_iff.mp hr).1
  cases h
  rw [hof.required .string h₁ (a := t.identity.space) (by simp [tagKeys]) (by simp),
    hof.required .string h₂ (a := t.identity.localName) (by simp [tagKeys]) (by simp),
    hof.required (.word Delimiter.ofWord?_word) h₃ (a := t.identity.delimiter)
      (by simp [tagKeys]) (by simp),
    hof.required (.word Dialect.ofWord?_word) h₄ (a := t.dialect) (by simp [tagKeys]) (by simp),
    hof.required .string h₅ (a := t.file.text) (by simp [tagKeys]) (by simp),
    hof.required (.below _) h₆ (a := t.modifiedAt) (by simp [tagKeys]) (by simp),
    hof.optional .string h₇ (a := t.documentation) (by simp [tagKeys]) (by simp) string_ne_null,
    hof.optional inverts_span h₈ (a := t.declaration) (by simp [tagKeys]) (by simp)
      spanValue_ne_null,
    hof.required inverts_attribute.items h₉ (a := t.attributes) (by simp [tagKeys]) (by simp),
    hof.required inverts_member.items h₁₀ (a := t.members) (by simp [tagKeys]) (by simp)]

/-- Tags that are read where tags were written are these tags. -/
theorem readTags?_writeTags {tags others : List Tag}
    (h : readTags? (writeTags tags) = some others) : others = tags := by
  obtain ⟨l, hl, hread⟩ := Option.bind_eq_some_iff.mp h
  have hlocated : readLocated (writeTags tags) = .ok l := by
    cases hx : readLocated (writeTags tags) with
    | error e =>
        rw [hx] at hl
        cases hl
    | ok l' =>
        rw [hx] at hl
        cases hl
        rfl
  exact inverts_tag.items tags others l (spells_of_readLocated hlocated) hread

end Stored

end ComponentAtlas
