import ComponentAtlas.Proofs.Text.Conventions

/-!
# Which names come back

An ASCII name comes back from the other convention exactly if it is spelled in its own. For camel
case this means no hyphen and no capital at the start; for hyphens it means no capital at all, and
each hyphen between something and a small letter. On the names of either kind the change of
convention is an involution.
-/

namespace ComponentAtlas.Text

section Ascii

variable {c : Char} (hc : c.toNat < 128)
include hc

theorem toNat_toUpper_ascii : c.toUpper.toNat < 128 := by
  refine forall_ascii (P := fun c => c.toUpper.toNat < 128) ?_ c hc
  decide

/-- The upper-case form of a small letter has that letter as its lower-case form. -/
theorem toLower_toUpper_ascii (hlower : c.isLower = true) : c.toUpper.toLower = c := by
  refine forall_ascii (P := fun c => c.isLower = true → c.toUpper.toLower = c) ?_ c hc hlower
  decide

end Ascii

/-- Every hyphen stands in front of a small letter. -/
def HyphensLead (name : List Char) : Prop :=
  ∀ front rest, name = front ++ '-' :: rest → ∃ c ∈ rest.head?, c.isLower = true

theorem hyphensLead_nil : HyphensLead [] := by
  intro front rest h
  simp at h

theorem hyphensLead_cons {c : Char} {rest : List Char} :
    HyphensLead (c :: rest) ↔
      (c = '-' → ∃ next ∈ rest.head?, next.isLower = true) ∧ HyphensLead rest := by
  constructor
  · intro h
    refine ⟨?_, fun front more hrest => h (c :: front) more (by rw [hrest, List.cons_append])⟩
    rintro rfl
    exact h [] rest rfl
  · rintro ⟨hfirst, hrest⟩ front more hsplit
    cases front with
    | nil =>
        obtain ⟨rfl, rfl⟩ := List.cons.inj hsplit
        exact hfirst rfl
    | cons d front =>
        obtain ⟨-, hmore⟩ := List.cons.inj hsplit
        exact hrest front more hmore

/-- A name with hyphens that its camel-case spelling leads back to. -/
structure IsHyphenated (name : List Char) : Prop where
  small : ∀ c ∈ name, c.isUpper = false
  first : name.head? ≠ some '-'
  leads : HyphensLead name

section Hyphenated

variable {name : List Char}

/-- What is hyphenated behind a first character has no capital, and its hyphens stand in front of
small letters. -/
theorem hyphenateRest_spec (h : ∀ c ∈ name, IsJoined c) :
    (∀ c ∈ hyphenateRest name, c.isUpper = false) ∧ HyphensLead (hyphenateRest name) := by
  induction name with
  | nil => exact ⟨List.forall_mem_nil _, hyphensLead_nil⟩
  | cons c rest ih =>
      obtain ⟨⟨hascii, hhyphen⟩, hrest⟩ := List.forall_mem_cons.mp h
      obtain ⟨hsmall, hleads⟩ := ih hrest
      rw [hyphenateRest, isUpperCase_ascii hascii]
      by_cases hupper : c.isUpper = true
      · obtain ⟨hlow, hlower, -⟩ := toLower_ascii hascii hupper
        rw [if_pos hupper, lowerForm_ascii hascii]
        refine ⟨List.forall_mem_cons.mpr ⟨by decide, List.forall_mem_cons.mpr
          ⟨not_isUpper_of_isLower hlow hlower, hsmall⟩⟩, ?_⟩
        refine hyphensLead_cons.mpr ⟨fun _ => ⟨_, rfl, hlower⟩, hyphensLead_cons.mpr ⟨?_, hleads⟩⟩
        exact fun heq => absurd heq (isJoined_of_isLower hlower).2
      · rw [if_neg hupper]
        exact ⟨List.forall_mem_cons.mpr ⟨Bool.eq_false_iff.mpr hupper, hsmall⟩,
          hyphensLead_cons.mpr ⟨fun heq => absurd heq hhyphen, hleads⟩⟩

/-- The first character gets no hyphen. -/
theorem hyphenate_cons {c : Char} {rest : List Char} (hascii : c.toNat < 128) :
    hyphenate (c :: rest) = (if c.isUpper then c.toLower else c) :: hyphenateRest rest := by
  rw [hyphenate, isUpperCase_ascii hascii, lowerForm_ascii hascii]
  split <;> rfl

/-- The hyphenated spelling of a name without hyphens is hyphenated. -/
theorem isHyphenated_hyphenate (h : ∀ c ∈ name, IsJoined c) : IsHyphenated (hyphenate name) := by
  cases name with
  | nil => exact ⟨List.forall_mem_nil _, nofun, hyphensLead_nil⟩
  | cons c rest =>
      obtain ⟨⟨hascii, hhyphen⟩, hrest⟩ := List.forall_mem_cons.mp h
      obtain ⟨hsmall, hleads⟩ := hyphenateRest_spec hrest
      have hfirst : (if c.isUpper then c.toLower else c).isUpper = false ∧
          (if c.isUpper then c.toLower else c) ≠ '-' := by
        split
        · next hupper =>
            obtain ⟨hlow, hlower, -⟩ := toLower_ascii hascii hupper
            exact ⟨not_isUpper_of_isLower hlow hlower, (isJoined_of_isLower hlower).2⟩
        · next hupper => exact ⟨Bool.eq_false_iff.mpr hupper, hhyphen⟩
      rw [hyphenate_cons hascii]
      exact ⟨List.forall_mem_cons.mpr ⟨hfirst.1, hsmall⟩,
        fun heq => hfirst.2 (Option.some.inj heq),
        hyphensLead_cons.mpr ⟨fun heq => absurd heq hfirst.2, hleads⟩⟩

theorem isJoined_camelizeFrom (raised : Bool) (hascii : ∀ c ∈ name, c.toNat < 128) :
    ∀ c ∈ camelizeFrom raised name, IsJoined c := by
  have hnumbers : ∀ c ∈ camelizeFrom raised name, c.toNat < 128 := by
    induction name generalizing raised with
    | nil => exact List.forall_mem_nil _
    | cons c rest ih =>
        obtain ⟨hc, hrest⟩ := List.forall_mem_cons.mp hascii
        rw [camelizeFrom]
        split
        · exact ih true hrest
        · rw [upperForm_ascii hc]
          refine List.forall_mem_append.mpr ⟨?_, ih false hrest⟩
          cases raised with
          | false => exact List.forall_mem_singleton.mpr hc
          | true => exact List.forall_mem_singleton.mpr (toNat_toUpper_ascii hc)
  intro c hc
  refine ⟨hnumbers c hc, ?_⟩
  rintro rfl
  exact hyphen_not_mem_camelizeFrom raised name hc

/-- Raised letters are lowered again behind a hyphen, where they were raised. -/
theorem hyphenateRest_camelizeFrom (hascii : ∀ c ∈ name, c.toNat < 128)
    (hsmall : ∀ c ∈ name, c.isUpper = false) (hleads : HyphensLead name) :
    hyphenateRest (camelizeFrom false name) = name := by
  have hkept : ∀ {c : Char} (rest : List Char), c.toNat < 128 → c.isUpper = false → c ≠ '-' →
      hyphenateRest (camelizeFrom false (c :: rest)) =
        c :: hyphenateRest (camelizeFrom false rest) := by
    intro c rest hc hupper hhyphen
    rw [camelizeFrom, if_neg hhyphen, if_neg Bool.false_ne_true, List.singleton_append,
      hyphenateRest, isUpperCase_ascii hc, hupper]
    rfl
  induction name with
  | nil => rfl
  | cons c rest ih =>
      obtain ⟨hc, hascii⟩ := List.forall_mem_cons.mp hascii
      obtain ⟨hupper, hsmall⟩ := List.forall_mem_cons.mp hsmall
      obtain ⟨hfirst, hleads⟩ := hyphensLead_cons.mp hleads
      have hrest := ih hascii hsmall hleads
      by_cases hhyphen : c = '-'
      · obtain ⟨next, hnext, hlower⟩ := hfirst hhyphen
        obtain ⟨more, rfl⟩ := List.head?_eq_some_iff.mp hnext
        obtain ⟨hn, -⟩ := List.forall_mem_cons.mp hascii
        have hjoined := isJoined_of_isLower hlower
        rw [hkept more hn (not_isUpper_of_isLower hn hlower) hjoined.2] at hrest
        -- The letter behind the hyphen is raised, and lowered again with a hyphen in front.
        rw [hhyphen, camelizeFrom, if_pos rfl, camelizeFrom, if_neg hjoined.2, if_pos rfl,
          upperForm_ascii hn, List.singleton_append, hyphenateRest,
          isUpperCase_ascii (toNat_toUpper_ascii hn), toUpper_ascii hn hlower, if_pos rfl,
          lowerForm_ascii (toNat_toUpper_ascii hn), toLower_toUpper_ascii hn hlower,
          (List.cons.inj hrest).2]
        rfl
      · rw [hkept rest hc hupper hhyphen, hrest]

theorem IsHyphenated.hyphenate_camelize (h : IsHyphenated name)
    (hascii : ∀ c ∈ name, c.toNat < 128) : hyphenate (camelize name) = name := by
  cases name with
  | nil => rfl
  | cons c rest =>
      obtain ⟨hc, hrest⟩ := List.forall_mem_cons.mp hascii
      obtain ⟨hupper, hsmall⟩ := List.forall_mem_cons.mp h.small
      have hhyphen : c ≠ '-' := fun heq => h.first (congrArg some heq)
      rw [camelize, camelizeFrom, if_neg hhyphen, if_neg Bool.false_ne_true, List.singleton_append,
        hyphenate_cons hc, hupper, if_neg Bool.false_ne_true,
        hyphenateRest_camelizeFrom hrest hsmall (hyphensLead_cons.mp h.leads).2]

/-- A name comes back from its camel-case spelling exactly if it is hyphenated. -/
theorem hyphenate_camelize_eq_self_iff (hascii : ∀ c ∈ name, c.toNat < 128) :
    hyphenate (camelize name) = name ↔ IsHyphenated name := by
  refine ⟨fun h => ?_, fun h => h.hyphenate_camelize hascii⟩
  rw [← h]
  exact isHyphenated_hyphenate (isJoined_camelizeFrom false hascii)

/-- A name comes back from its hyphenated spelling exactly if it has no hyphen and no capital at
its start. -/
theorem camelize_hyphenate_eq_self_iff (hascii : ∀ c ∈ name, c.toNat < 128) :
    camelize (hyphenate name) = name ↔ IsUncapitalized name := by
  refine ⟨fun h => ⟨fun c hc => ⟨hascii c hc, ?_⟩, fun c hc => ?_⟩, fun h => h.camelize_hyphenate⟩
  · rintro rfl
    rw [← h] at hc
    exact hyphen_not_mem_camelizeFrom false _ hc
  · obtain ⟨rest, rfl⟩ := List.head?_eq_some_iff.mp hc
    have hnumber := hascii c List.mem_cons_self
    refine Bool.eq_false_iff.mpr fun hupper => ?_
    -- A capital at the start is lowered, and nothing raises it again.
    obtain ⟨hlow, hlower, -⟩ := toLower_ascii hnumber hupper
    rw [hyphenate_cons hnumber, if_pos hupper, camelize, camelizeFrom,
      if_neg (isJoined_of_isLower hlower).2, if_neg Bool.false_ne_true,
      List.singleton_append] at h
    rw [(List.cons.inj h).1] at hlower
    rw [not_isUpper_of_isLower hnumber hlower] at hupper
    cases hupper

theorem IsHyphenated.uncapitalized_camelize (h : IsHyphenated name)
    (hascii : ∀ c ∈ name, c.toNat < 128) : IsUncapitalized (camelize name) := by
  have hnumbers : ∀ c ∈ camelize name, c.toNat < 128 := fun c hc =>
    (isJoined_camelizeFrom false hascii c hc).1
  rw [← camelize_hyphenate_eq_self_iff hnumbers, h.hyphenate_camelize hascii]

/-- A hyphenated name without a hyphen is one in camel case too. -/
theorem IsHyphenated.uncapitalized (h : IsHyphenated name) (hascii : ∀ c ∈ name, c.toNat < 128)
    (hhyphen : '-' ∉ name) : IsUncapitalized name where
  joined c hc := ⟨hascii c hc, fun heq => hhyphen (heq ▸ hc)⟩
  first c hc := h.small c (List.mem_of_mem_head? hc)

end Hyphenated

section Flip

variable {name : String}

theorem flipConvention_of_hyphen (h : '-' ∈ name.toList) :
    flipConvention name = camelOfKebab name := by
  rw [flipConvention, if_pos (List.contains_iff_mem.mpr h)]

theorem flipConvention_of_no_hyphen (h : '-' ∉ name.toList) :
    flipConvention name = kebabOfCamel name := by
  rw [flipConvention, if_neg fun hcontains => h (List.contains_iff_mem.mp hcontains)]

theorem flipConvention_of_uncapitalized (h : IsUncapitalized name.toList) :
    flipConvention (flipConvention name) = name ∧
      IsHyphenated (flipConvention name).toList := by
  rw [flipConvention_of_no_hyphen h.hyphen_not_mem]
  have hlist : (kebabOfCamel name).toList = hyphenate name.toList := String.toList_ofList
  refine ⟨?_, hlist ▸ isHyphenated_hyphenate h.joined⟩
  rcases h.hyphenate_cases with hsame | hhyphen
  · have hkebab : kebabOfCamel name = name := String.toList_inj.mp (hlist.trans hsame)
    rw [hkebab, flipConvention_of_no_hyphen h.hyphen_not_mem, hkebab]
  · rw [flipConvention_of_hyphen (hlist ▸ hhyphen), camelOfKebab_kebabOfCamel h]

theorem flipConvention_of_hyphenated (h : IsHyphenated name.toList)
    (hascii : ∀ c ∈ name.toList, c.toNat < 128) (hhyphen : '-' ∈ name.toList) :
    flipConvention (flipConvention name) = name ∧
      IsUncapitalized (flipConvention name).toList := by
  rw [flipConvention_of_hyphen hhyphen]
  have hlist : (camelOfKebab name).toList = camelize name.toList := String.toList_ofList
  have hcamel : IsUncapitalized (camelOfKebab name).toList :=
    hlist ▸ h.uncapitalized_camelize hascii
  refine ⟨?_, hcamel⟩
  rw [flipConvention_of_no_hyphen hcamel.hyphen_not_mem, kebabOfCamel, hlist,
    h.hyphenate_camelize hascii, String.ofList_toList]

end Flip

/-- An ASCII name comes back from its hyphenated spelling exactly if it has no hyphen and no capital
at its start, and from its camel-case spelling exactly if it is hyphenated. The change of convention
takes such names to such names, and a second one leads back. -/
theorem conventions_inverse (name : String) (hascii : ∀ c ∈ name.toList, c.toNat < 128) :
    (camelOfKebab (kebabOfCamel name) = name ↔
      '-' ∉ name.toList ∧ ∀ c ∈ name.toList.head?, c.isUpper = false) ∧
    (kebabOfCamel (camelOfKebab name) = name ↔
      (∀ c ∈ name.toList, c.isUpper = false) ∧ name.toList.head? ≠ some '-' ∧
        HyphensLead name.toList) ∧
    (IsUncapitalized name.toList ∨ IsHyphenated name.toList →
      flipConvention (flipConvention name) = name ∧
        (IsUncapitalized (flipConvention name).toList ∨
          IsHyphenated (flipConvention name).toList)) := by
  have hcamel : camelOfKebab (kebabOfCamel name) = name ↔ IsUncapitalized name.toList := by
    rw [← camelize_hyphenate_eq_self_iff hascii, ← String.toList_inj, camelOfKebab, kebabOfCamel,
      String.toList_ofList, String.toList_ofList]
  have hkebab : kebabOfCamel (camelOfKebab name) = name ↔ IsHyphenated name.toList := by
    rw [← hyphenate_camelize_eq_self_iff hascii, ← String.toList_inj, camelOfKebab, kebabOfCamel,
      String.toList_ofList, String.toList_ofList]
  refine ⟨hcamel.trans ⟨fun h => ⟨h.hyphen_not_mem, h.first⟩, ?_⟩,
    hkebab.trans ⟨fun h => ⟨h.small, h.first, h.leads⟩, fun h => ⟨h.1, h.2.1, h.2.2⟩⟩, ?_⟩
  · rintro ⟨hhyphen, hfirst⟩
    exact ⟨fun c hc => ⟨hascii c hc, fun heq => hhyphen (heq ▸ hc)⟩, hfirst⟩
  · rintro (h | h)
    · exact (flipConvention_of_uncapitalized h).imp_right .inr
    · by_cases hhyphen : '-' ∈ name.toList
      · exact (flipConvention_of_hyphenated h hascii hhyphen).imp_right .inl
      · exact (flipConvention_of_uncapitalized (h.uncapitalized hascii hhyphen)).imp_right .inr

/-- A letter behind a hyphen comes back and a digit does not. -/
theorem conventions_inverse_row :
    kebabOfCamel (camelOfKebab "row-item") = "row-item" ∧
      flipConvention (flipConvention "row-item") = "row-item" ∧
        kebabOfCamel (camelOfKebab "row-2") ≠ "row-2" := by
  obtain ⟨-, hitem, hflip⟩ := conventions_inverse "row-item" (by simp)
  obtain ⟨-, hdigit, -⟩ := conventions_inverse "row-2" (by simp)
  have hleads : HyphensLead "row-item".toList := by
    simp [hyphensLead_cons, hyphensLead_nil]
  have hsmall : ∀ c ∈ "row-item".toList, c.isUpper = false := by simp
  refine ⟨hitem.mpr ⟨hsmall, by decide, hleads⟩,
    (hflip (.inr ⟨hsmall, by decide, hleads⟩)).1, fun hback => ?_⟩
  obtain ⟨next, hnext, hlower⟩ := (hdigit.mp hback).2.2 ['r', 'o', 'w'] ['2'] (by decide)
  obtain rfl := Option.some.inj hnext
  exact absurd hlower (by decide)

end ComponentAtlas.Text
