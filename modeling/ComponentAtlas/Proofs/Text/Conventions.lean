import ComponentAtlas.Text.Naming
import Mathlib

/-!
# Going from one convention to the other and back

Among the ASCII characters only the letters have another case, and each is the form of its form. A
name in camel case therefore comes back from its hyphenated spelling, which is the name itself
when no letter of it is raised.
-/

namespace ComponentAtlas.Text

/-- What holds of the first 128 characters one by one holds of each of them. -/
theorem forall_ascii {P : Char → Prop} (h : ∀ n < 128, P (Char.ofNat n)) (c : Char)
    (hc : c.toNat < 128) : P c := by
  have hsame := h c.toNat hc
  rwa [Char.ofNat_toNat] at hsame

section Ascii

variable {c : Char} (hc : c.toNat < 128)
include hc

theorem isUpperCase_ascii : isUpperCase c = c.isUpper := by
  simp [isUpperCase, hc]

theorem lowerForm_ascii : lowerForm c = [c.toLower] := by
  simp [lowerForm, hc]

theorem upperForm_ascii : upperForm c = [c.toUpper] := by
  simp [upperForm, hc]

/-- The lower-case form of a capital is a letter of its own, whose upper-case form it is. -/
theorem toLower_ascii (hupper : c.isUpper = true) :
    c.toLower.toNat < 128 ∧ c.toLower.isLower = true ∧ c.toLower.toUpper = c := by
  refine forall_ascii (P := fun c => c.isUpper = true →
    c.toLower.toNat < 128 ∧ c.toLower.isLower = true ∧ c.toLower.toUpper = c) ?_ c hc hupper
  decide

/-- The upper-case form of a small letter is a capital. -/
theorem toUpper_ascii (hlower : c.isLower = true) : c.toUpper.isUpper = true := by
  refine forall_ascii (P := fun c => c.isLower = true → c.toUpper.isUpper = true) ?_ c hc hlower
  decide

theorem not_isUpper_of_isLower (hlower : c.isLower = true) : c.isUpper = false := by
  refine forall_ascii (P := fun c => c.isLower = true → c.isUpper = false) ?_ c hc hlower
  decide

end Ascii

/-- A character of a part of a camel-case name: ASCII and no hyphen. -/
def IsJoined (c : Char) : Prop :=
  c.toNat < 128 ∧ c ≠ '-'

/-- A letter or a digit is joined, and no colon. -/
theorem isJoined_of_isAlphanum {c : Char} (h : c.isAlphanum = true) :
    IsJoined c ∧ c ≠ ':' := by
  have hrange : ((65 ≤ c.toNat ∧ c.toNat ≤ 90) ∨ (97 ≤ c.toNat ∧ c.toNat ≤ 122)) ∨
      (48 ≤ c.toNat ∧ c.toNat ≤ 57) := by
    simp only [Char.isAlphanum, Char.isAlpha, Char.isUpper, Char.isLower, Char.isDigit,
      Bool.or_eq_true, Bool.and_eq_true, decide_eq_true_eq, UInt32.le_iff_toNat_le,
      ge_iff_le] at h
    exact h
  refine ⟨⟨by omega, ?_⟩, ?_⟩
  · rintro rfl
    exact absurd h (by decide)
  · rintro rfl
    exact absurd h (by decide)

theorem isJoined_of_isLower {c : Char} (h : c.isLower = true) : IsJoined c :=
  (isJoined_of_isAlphanum (by simp [Char.isAlphanum, Char.isAlpha, h])).1

/-- A capital and what is behind it come back from their hyphenated spelling. -/
theorem camelizeFrom_hyphenateRest {rest : List Char} (h : ∀ c ∈ rest, IsJoined c) :
    camelizeFrom false (hyphenateRest rest) = rest := by
  induction rest with
  | nil => rfl
  | cons c rest ih =>
      obtain ⟨⟨hascii, hhyphen⟩, hrest⟩ := List.forall_mem_cons.mp h
      rw [hyphenateRest, isUpperCase_ascii hascii]
      by_cases hupper : c.isUpper = true
      · obtain ⟨hlow, hlower, hback⟩ := toLower_ascii hascii hupper
        have hjoined := isJoined_of_isLower hlower
        simp only [if_pos hupper, lowerForm_ascii hascii, List.cons_append, List.nil_append,
          camelizeFrom, if_true, if_neg hjoined.2, upperForm_ascii hlow, hback, ih hrest]
      · simp only [if_neg hupper, List.cons_append, List.nil_append, camelizeFrom, if_neg hhyphen,
          Bool.false_eq_true, if_false, ih hrest]

theorem hyphenateRest_eq_self {rest : List Char} (h : ∀ c ∈ rest, isUpperCase c = false) :
    hyphenateRest rest = rest := by
  induction rest with
  | nil => rfl
  | cons c rest ih =>
      obtain ⟨hc, hrest⟩ := List.forall_mem_cons.mp h
      rw [hyphenateRest, hc, ih hrest]
      rfl

/-- Each raised character puts a hyphen. -/
theorem hyphen_mem_hyphenateRest {rest : List Char} {c : Char} (hc : c ∈ rest)
    (hupper : isUpperCase c = true) : '-' ∈ hyphenateRest rest := by
  induction rest with
  | nil => cases hc
  | cons d rest ih =>
      rw [hyphenateRest]
      rcases List.mem_cons.mp hc with rfl | hrest
      · rw [if_pos hupper]
        exact List.mem_cons_self
      · exact List.mem_append_right _ (ih hrest)

/-- A name that its hyphenated spelling leads back to: ASCII without hyphens, and no capital at its
start. -/
structure IsUncapitalized (name : List Char) : Prop where
  joined : ∀ c ∈ name, IsJoined c
  first : ∀ c ∈ name.head?, c.isUpper = false

namespace IsUncapitalized

variable {name other : List Char} (h : IsUncapitalized name)
include h

theorem hyphen_not_mem : '-' ∉ name :=
  fun hmem => (h.joined '-' hmem).2 rfl

theorem hyphenate_eq_rest : hyphenate name = hyphenateRest name := by
  cases name with
  | nil => rfl
  | cons c rest =>
      have hupper : isUpperCase c = false :=
        (isUpperCase_ascii (h.joined c List.mem_cons_self).1).trans (h.first c rfl)
      rw [hyphenate, hyphenateRest, hupper]
      rfl

theorem camelize_hyphenate : camelize (hyphenate name) = name := by
  rw [h.hyphenate_eq_rest, camelize, camelizeFrom_hyphenateRest h.joined]

/-- The hyphenated spelling is the name itself, or it has a hyphen. -/
theorem hyphenate_cases : hyphenate name = name ∨ '-' ∈ hyphenate name := by
  rw [h.hyphenate_eq_rest]
  by_cases hupper : ∃ x ∈ name, isUpperCase x = true
  · obtain ⟨x, hx, hraised⟩ := hupper
    exact .inr (hyphen_mem_hyphenateRest hx hraised)
  · exact .inl (hyphenateRest_eq_self fun x hx =>
      Bool.eq_false_iff.mpr fun hraised => hupper ⟨x, hx, hraised⟩)

/-- A hyphenated spelling without hyphens is that of itself only. -/
theorem eq_of_hyphenate_eq (hother : '-' ∉ other) (heq : hyphenate name = other) :
    name = other := by
  rcases h.hyphenate_cases with hsame | hhyphen
  · exact hsame.symm.trans heq
  · exact absurd (heq ▸ hhyphen) hother

theorem hyphenate_injective (hother : IsUncapitalized other)
    (heq : hyphenate name = hyphenate other) : name = other := by
  rw [← h.camelize_hyphenate, heq, hother.camelize_hyphenate]

end IsUncapitalized

/-- A name in camel case: a small letter, and behind it letters and digits. -/
def IsCamel : List Char → Prop
  | [] => False
  | c :: rest => c.isLower = true ∧ ∀ x ∈ rest, x.isAlphanum = true

instance : DecidablePred IsCamel
  | [] => inferInstanceAs (Decidable False)
  | c :: rest =>
      have : Decidable (∀ x ∈ rest, x.isAlphanum = true) := List.decidableBAll _ rest
      inferInstanceAs (Decidable (c.isLower = true ∧ ∀ x ∈ rest, x.isAlphanum = true))

namespace IsCamel

variable {name : List Char} (h : IsCamel name)
include h

theorem exists_cons : ∃ c rest, name = c :: rest ∧ c.isLower = true ∧
    ∀ x ∈ rest, x.isAlphanum = true := by
  cases name with
  | nil => exact h.elim
  | cons c rest => exact ⟨c, rest, rfl, h⟩

/-- A name in camel case has neither a hyphen nor a colon. -/
theorem joined {c : Char} (hc : c ∈ name) : IsJoined c ∧ c ≠ ':' := by
  obtain ⟨first, rest, rfl, hfirst, hrest⟩ := h.exists_cons
  rcases List.mem_cons.mp hc with rfl | hmem
  · exact isJoined_of_isAlphanum (by simp [Char.isAlphanum, Char.isAlpha, hfirst])
  · exact isJoined_of_isAlphanum (hrest c hmem)

theorem uncapitalized : IsUncapitalized name where
  joined _ hc := (h.joined hc).1
  first c hc := by
    obtain ⟨first, rest, rfl, hlower, -⟩ := h.exists_cons
    obtain rfl := Option.some.inj hc
    exact not_isUpper_of_isLower (isJoined_of_isLower hlower).1 hlower

theorem hyphen_not_mem : '-' ∉ name :=
  h.uncapitalized.hyphen_not_mem

/-- The hyphenated spelling leaves the first letter. -/
theorem hyphenate_eq : ∃ c rest, name = c :: rest ∧ c.isLower = true ∧
    hyphenate name = c :: hyphenateRest rest := by
  obtain ⟨c, rest, rfl, hlower, -⟩ := h.exists_cons
  have hascii := (isJoined_of_isLower hlower).1
  refine ⟨c, rest, rfl, hlower, ?_⟩
  rw [hyphenate, isUpperCase_ascii hascii, not_isUpper_of_isLower hascii hlower]
  rfl

theorem colon_not_mem_hyphenate : ':' ∉ hyphenate name := by
  obtain ⟨c, rest, hname, hlower, hhyphenate⟩ := h.hyphenate_eq
  have hrest : ∀ x ∈ rest, IsJoined x ∧ x ≠ ':' := fun x hx => h.joined (hname ▸ .tail _ hx)
  have hfirst : c ≠ ':' := (h.joined (hname ▸ List.mem_cons_self)).2
  have hbehind : ':' ∉ hyphenateRest rest := by
    clear hhyphenate hname
    induction rest with
    | nil => exact List.not_mem_nil
    | cons x rest ih =>
        obtain ⟨⟨⟨hascii, -⟩, hcolon⟩, hrest⟩ := List.forall_mem_cons.mp hrest
        rw [hyphenateRest, isUpperCase_ascii hascii, List.mem_append, not_or]
        refine ⟨?_, ih hrest⟩
        by_cases hupper : x.isUpper = true
        · have hlower := (toLower_ascii hascii hupper).2.1
          have hletter : ':' ≠ x.toLower := by
            intro heq
            rw [← heq] at hlower
            exact absurd hlower (by decide)
          simp [hupper, lowerForm_ascii hascii, hletter]
        · simpa [hupper] using Ne.symm hcolon
  rw [hhyphenate, List.mem_cons, not_or]
  exact ⟨Ne.symm hfirst, hbehind⟩

end IsCamel

section Raised

theorem ofNat_ne_hyphen {n : Nat} (hn : n ≠ '-'.toNat) : Char.ofNat n ≠ '-' := by
  intro h
  rw [Char.ofNat] at h
  split at h
  · exact hn (congrArg Char.toNat h)
  · exact absurd h (by decide)

/-- No run of the tables ends at a hyphen: every form beyond ASCII lies behind it. -/
theorem shifted?_upperRuns_ne_hyphen {n : Nat} {u : Char} (h : shifted? upperRuns n = some u) :
    u ≠ '-' := by
  obtain ⟨r, hr, rfl⟩ := Option.map_eq_some_iff.mp h
  have hlo : r.lo ≤ n := by
    have hholds := List.find?_some hr
    simp only [ShiftRun.holds, Bool.and_eq_true, decide_eq_true_eq] at hholds
    exact hholds.1.1
  have hbehind : ∀ r ∈ upperRuns, ('-'.toNat : Int) < r.lo + r.shift := by decide +kernel
  have hshift := hbehind r (List.mem_of_find?_eq_some hr)
  exact ofNat_ne_hyphen (by omega)

/-- Only the hyphen has a hyphen in its upper-case form. -/
theorem hyphen_not_mem_upperForm {c : Char} (hc : c ≠ '-') : '-' ∉ upperForm c := by
  by_cases hascii : c.toNat < 128
  · rw [upperForm_ascii hascii, List.mem_singleton]
    refine forall_ascii (P := fun c => c ≠ '-' → '-' ≠ c.toUpper) ?_ c hascii hc
    decide
  · rw [upperForm, if_neg hascii]
    cases hlong : longUpper.find? (·.1 == c.toNat) with
    | some entry =>
        have hforms : ∀ e ∈ longUpper, '-' ∉ e.2.map Char.ofNat := by decide +kernel
        exact hforms entry (List.mem_of_find?_eq_some hlong)
    | none =>
        cases hrun : shifted? upperRuns c.toNat with
        | some u => simpa [hrun] using (shifted?_upperRuns_ne_hyphen hrun).symm
        | none => simpa [hrun] using hc.symm

theorem hyphen_not_mem_camelizeFrom (raised : Bool) (name : List Char) :
    '-' ∉ camelizeFrom raised name := by
  induction name generalizing raised with
  | nil => exact List.not_mem_nil
  | cons c rest ih =>
      rw [camelizeFrom]
      split
      · exact ih true
      · next hc =>
        rw [List.mem_append, not_or]
        refine ⟨?_, ih false⟩
        cases raised with
        | false => simpa using Ne.symm hc
        | true => exact hyphen_not_mem_upperForm hc

theorem camelize_eq_self {name : List Char} (h : '-' ∉ name) : camelize name = name := by
  rw [camelize]
  induction name with
  | nil => rfl
  | cons c rest ih =>
      rw [List.mem_cons, not_or] at h
      rw [camelizeFrom, if_neg (Ne.symm h.1), ih h.2]
      rfl

/-- A name in camel case stays as it is. -/
theorem camelOfKebab_camelOfKebab (name : String) :
    camelOfKebab (camelOfKebab name) = camelOfKebab name := by
  have hplain : '-' ∉ camelize name.toList := hyphen_not_mem_camelizeFrom false name.toList
  rw [camelOfKebab, camelOfKebab, String.toList_ofList, camelize_eq_self hplain]

end Raised

/-- A hyphen in front raises the first letter. -/
theorem not_isCamel_camelize {name : List Char} {c : Char} (hlower : c.isLower = true) :
    ¬IsCamel (camelize ('-' :: c :: name)) := by
  have hjoined := isJoined_of_isLower hlower
  have hraised := toUpper_ascii hjoined.1 hlower
  have hform : camelize ('-' :: c :: name) = c.toUpper :: camelizeFrom false name := by
    simp only [camelize, camelizeFrom, if_true, if_neg hjoined.2, upperForm_ascii hjoined.1,
      List.cons_append, List.nil_append]
  rw [hform]
  rintro ⟨hsmall, -⟩
  have hascii := (isJoined_of_isLower hsmall).1
  rw [not_isUpper_of_isLower hascii hsmall] at hraised
  cases hraised

theorem camelOfKebab_kebabOfCamel {name : String} (h : IsUncapitalized name.toList) :
    camelOfKebab (kebabOfCamel name) = name := by
  rw [camelOfKebab, kebabOfCamel, String.toList_ofList, h.camelize_hyphenate,
    String.ofList_toList]

/-- The other convention leads back from the hyphenated spelling, unless that is the name. -/
theorem flipConvention_kebabOfCamel {name : String} (h : IsCamel name.toList) :
    kebabOfCamel name = name ∨ flipConvention (kebabOfCamel name) = name := by
  rcases h.uncapitalized.hyphenate_cases with hsame | hhyphen
  · left
    rw [kebabOfCamel, hsame, String.ofList_toList]
  · right
    have hcontains : (kebabOfCamel name).toList.contains '-' = true := by
      simpa [kebabOfCamel] using hhyphen
    rw [flipConvention, if_pos hcontains, camelOfKebab_kebabOfCamel h.uncapitalized]

end ComponentAtlas.Text
