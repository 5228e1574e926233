import ComponentAtlas.Proofs.Json.Lexemes
import ComponentAtlas.Proofs.Number.Digits

/-!
# Numbers that are read back

A written natural number is found again, as long as it is kept exactly, and whatever else it is
read as is no natural number. The digits of a float are read as a float again: in front of the
point, behind it and in an exponent, none of them is dropped.
-/

namespace ComponentAtlas.Json

open ComponentAtlas.Number (Binary DecimalLayout Writable zeros exponentText jsonLayout)

/-- A text that no digit starts. -/
def NoDigit (rest : List Char) : Prop :=
  ∀ d ∈ rest.head?, ¬d.isDigit = true

theorem NoDigit.cons {d : Char} {rest : List Char} (h : ¬d.isDigit = true) : NoDigit (d :: rest) :=
  fun _ he => Option.some.inj he ▸ h

theorem Ends.noDigit {rest : List Char} (h : Ends rest) : NoDigit rest := by
  intro d hd
  rcases h d hd with rfl | rfl <;> decide

section Digits

variable {digits rest : List Char} {n : Nat}

theorem le_ofDigitChars (digits : List Char) (significand : Nat) :
    significand ≤ Nat.ofDigitChars 10 digits significand := by
  rw [Nat.ofDigitChars_eq_ofDigitChars_zero]
  calc significand = 1 * significand := (Nat.one_mul _).symm
    _ ≤ 10 ^ digits.length * significand := Nat.mul_le_mul_right _ (Nat.one_le_pow _ _ (by decide))
    _ ≤ _ := Nat.le_add_right _ _

/-- Digits are read up to their end, and as long as none is dropped they make up the number. -/
theorem readDigits_append (hdigits : ∀ d ∈ digits, d.isDigit = true) (hrest : NoDigit rest)
    (significand offset : Nat) (full : Bool) (count dropped : Nat) :
    let read := readDigits significand (digits ++ rest) offset full count dropped
    read.2.2.2.rest = rest ∧ dropped ≤ read.2.2.1 ∧
      (read.2.2.1 = dropped → read.1 = Nat.ofDigitChars 10 digits significand) := by
  induction digits generalizing significand offset full count dropped with
  | nil =>
      cases rest with
      | nil => exact ⟨rfl, Nat.le_refl _, fun _ => rfl⟩
      | cons d more =>
          simp only [List.nil_append, readDigits, if_neg (hrest d rfl)]
          exact ⟨trivial, Nat.le_refl _, fun _ => rfl⟩
  | cons d more ih =>
      have hd : d.isDigit = true := hdigits d List.mem_cons_self
      have hmore : ∀ e ∈ more, e.isDigit = true := fun e he => hdigits e (List.mem_cons_of_mem _ he)
      simp only [List.cons_append, readDigits, hd, if_true]
      split
      · obtain ⟨hend, hle, -⟩ := ih hmore significand (offset + 1) true count (dropped + 1)
        refine ⟨hend, Nat.le_of_succ_le hle, fun hsame => ?_⟩
        rw [hsame] at hle
        exact absurd hle (Nat.not_succ_le_self _)
      · obtain ⟨hend, hle, hvalue⟩ :=
          ih hmore (significand * 10 + (d.toNat - '0'.toNat)) (offset + 1) false (count + 1) dropped
        refine ⟨hend, hle, fun hsame => ?_⟩
        rw [hvalue hsame, Nat.ofDigitChars_cons, Nat.mul_comm]

/-- No digit of a number that is kept exactly is dropped. -/
theorem readDigits_exact (hdigits : ∀ d ∈ digits, d.isDigit = true) (hrest : NoDigit rest)
    (significand offset count dropped : Nat)
    (h : Nat.ofDigitChars 10 digits significand ≤ maxSignificand) :
    readDigits significand (digits ++ rest) offset false count dropped =
      (Nat.ofDigitChars 10 digits significand, count + digits.length, dropped,
        ⟨rest, offset + digits.length⟩) := by
  induction digits generalizing significand offset count with
  | nil =>
      cases rest with
      | nil => rfl
      | cons d more => simp [readDigits, hrest d rfl]
  | cons d more ih =>
      have hd : d.isDigit = true := hdigits d List.mem_cons_self
      have hmore : ∀ e ∈ more, e.isDigit = true := fun e he => hdigits e (List.mem_cons_of_mem _ he)
      rw [Nat.ofDigitChars_cons, Nat.mul_comm] at h
      have hnext := Nat.le_trans (le_ofDigitChars more _) h
      simp only [List.cons_append, readDigits, hd, if_true, Bool.false_eq_true, false_or,
        if_neg (Nat.not_lt.mpr hnext)]
      rw [ih hmore _ (offset + 1) (count + 1) h, Nat.ofDigitChars_cons, Nat.mul_comm 10,
        List.length_cons]
      simp only [Nat.add_assoc, Nat.add_comm 1]

/-- The digits of an exponent. -/
theorem readExponentDigits_exact (hdigits : ∀ d ∈ digits, d.isDigit = true) (hrest : NoDigit rest)
    (value offset : Nat) (h : Nat.ofDigitChars 10 digits value ≤ maxExponent) :
    readExponentDigits (some value) (digits ++ rest) offset =
      (some (Nat.ofDigitChars 10 digits value), ⟨rest, offset + digits.length⟩) := by
  induction digits generalizing value offset with
  | nil =>
      cases rest with
      | nil => rfl
      | cons d more => simp [readExponentDigits, hrest d rfl]
  | cons d more ih =>
      have hd : d.isDigit = true := hdigits d List.mem_cons_self
      have hmore : ∀ e ∈ more, e.isDigit = true := fun e he => hdigits e (List.mem_cons_of_mem _ he)
      rw [Nat.ofDigitChars_cons, Nat.mul_comm] at h
      have hnext := Nat.le_trans (le_ofDigitChars more _) h
      simp only [List.cons_append, readExponentDigits, hd, if_true, Option.bind_some,
        if_neg (Nat.not_lt.mpr hnext)]
      rw [ih hmore _ (offset + 1) h, Nat.ofDigitChars_cons, Nat.mul_comm 10, List.length_cons]
      simp only [Nat.add_assoc, Nat.add_comm 1]

theorem isDigit_of_mem_toDigits {d : Char} (h : d ∈ Nat.toDigits 10 n) : d.isDigit = true :=
  Nat.isDigit_of_mem_toDigits (by decide) (by decide) h

/-- The digits of a number start with a zero only if that is all of them. -/
theorem eq_nil_of_toDigits {n : Nat} {more : List Char} (h : Nat.toDigits 10 n = '0' :: more) :
    more = [] := by
  induction n using Nat.strong_induction_on generalizing more with
  | _ n ih =>
      rcases Nat.lt_or_ge n 10 with hsmall | hlarge
      · rw [Nat.toDigits_of_lt_base hsmall] at h
        exact (List.cons.inj h).2.symm
      · rw [Nat.toDigits_of_base_le (by decide) hlarge] at h
        obtain ⟨first, front, hfront⟩ :=
          List.exists_cons_of_ne_nil (Nat.toDigits_ne_nil (n := n / 10) (b := 10))
        rw [hfront, List.cons_append] at h
        obtain ⟨rfl, -⟩ := List.cons.inj h
        obtain rfl := ih (n / 10) (by omega) hfront
        -- A tenth of the number would be zero.
        have hzero : Nat.ofDigitChars 10 (Nat.toDigits 10 (n / 10)) 0 = 0 := by
          rw [hfront]
          rfl
        rw [Nat.ofDigitChars_ten_toDigits] at hzero
        omega

end Digits

section Reading

/-- The number of the digits that were read, with the fraction and the exponent behind them. -/
def finishDigits (negative : Bool) (read : Nat × Nat × Nat × Cursor) :
    Except ReadError (Number × Cursor) :=
  match read with
  | (significand, _, dropped, after) =>
    match after.rest with
    | '.' :: _ => readFraction negative significand dropped after.tail
    | 'e' :: _ => readExponent negative significand dropped after.tail
    | 'E' :: _ => readExponent negative significand dropped after.tail
    | _ =>
        if dropped = 0 then makeInteger negative significand after
        else makeBinary negative significand dropped after

/-- The digits in front of a fraction: a zero stands alone. -/
structure Whole (digits : List Char) : Prop where
  isDigit : ∀ d ∈ digits, d.isDigit = true
  ne_nil : digits ≠ []
  zero : ∀ more, digits = '0' :: more → more = []

theorem whole_toDigits (n : Nat) : Whole (Nat.toDigits 10 n) :=
  ⟨fun _ => isDigit_of_mem_toDigits, Nat.toDigits_ne_nil, fun _ => eq_nil_of_toDigits⟩

variable {negative : Bool} {digits rest : List Char} {offset : Nat}

/-- A number starts with its digits. None of them is dropped as long as they are kept exactly. -/
theorem readNumber_whole (hdigits : Whole digits) (hrest : NoDigit rest) (negative : Bool)
    (offset : Nat) :
    ∃ read, readNumber negative ⟨digits ++ rest, offset⟩ = finishDigits negative read ∧
      read.2.2.2.rest = rest ∧ (read.2.2.1 = 0 → read.1 = Nat.ofDigitChars 10 digits 0) ∧
        (Nat.ofDigitChars 10 digits 0 ≤ maxSignificand → read.2.2.1 = 0) := by
  obtain ⟨hisDigit, hne, hzero⟩ := hdigits
  obtain ⟨first, more, rfl⟩ := List.exists_cons_of_ne_nil hne
  have hfirst := hisDigit first List.mem_cons_self
  unfold readNumber
  by_cases hstart : first = '0'
  · -- A zero stands alone: more digits behind it would be an error.
    subst hstart
    obtain rfl := hzero more rfl
    have hhead : ¬(rest.head?.any Char.isDigit) = true := by
      cases rest with
      | nil => decide
      | cons d more => simpa using hrest d rfl
    refine ⟨(0, 1, 0, ⟨rest, offset + '0'.utf8Size⟩), ?_, rfl, fun _ => rfl, fun _ => rfl⟩
    simp only [List.cons_append, List.nil_append, hhead, hfirst, if_true]
    rfl
  · refine ⟨readDigits 0 (first :: more ++ rest) offset false 0 0, ?_, ?_⟩
    · simp only [List.cons_append, hstart, false_and, if_false, hfirst, if_true]
      rfl
    · obtain ⟨hend, -, hread⟩ := readDigits_append hisDigit hrest 0 offset false 0 0
      exact ⟨hend, hread, fun hle => by rw [readDigits_exact hisDigit hrest _ _ _ _ hle]⟩

/-- Where a number ends, no fraction and no exponent is looked for. -/
theorem finishDigits_ends (hrest : Ends rest) (negative : Bool)
    {read : Nat × Nat × Nat × Cursor} (hend : read.2.2.2.rest = rest) :
    finishDigits negative read =
      if read.2.2.1 = 0 then makeInteger negative read.1 read.2.2.2
      else makeBinary negative read.1 read.2.2.1 read.2.2.2 := by
  obtain ⟨significand, count, dropped, stop⟩ := read
  dsimp only at hend
  have hnot : ∀ d more, d = '.' ∨ d = 'e' ∨ d = 'E' → stop.rest ≠ d :: more := by
    intro d more hd hstop
    rw [hend] at hstop
    rcases hrest d (by rw [hstop]; rfl) with rfl | rfl <;> revert hd <;> decide
  simp only [finishDigits]
  split
  · next heq => exact absurd heq (hnot _ _ (.inl rfl))
  · next heq => exact absurd heq (hnot _ _ (.inr (.inl rfl)))
  · next heq => exact absurd heq (hnot _ _ (.inr (.inr rfl)))
  · rfl

/-- A number that is made as a fraction is no natural number. -/
theorem makeBinary_eq_ok {significand : Nat} {exponent : Int} {c after : Cursor} {n : Number}
    (h : makeBinary negative significand exponent c = .ok (n, after)) :
    after = c ∧ ∀ m, n ≠ .natural m := by
  unfold makeBinary at h
  dsimp only at h
  split at h
  · cases h
  · split at h
    · cases h
      exact ⟨rfl, fun m hm => nomatch hm⟩
    · cases h

/-- A written natural number is read up to its end, as itself or as no natural number. Behind a
sign it is read as no natural number. -/
theorem readNumber_toDigits {n : Nat} (hrest : Ends rest) {m : Number} {after : Cursor}
    (h : readNumber negative ⟨Nat.toDigits 10 n ++ rest, offset⟩ = .ok (m, after)) :
    after.rest = rest ∧ ((negative = false ∧ m = .natural n) ∨
      ((negative = false → maxSignificand < n) ∧ ∀ k, m ≠ .natural k)) := by
  obtain ⟨read, hwhole, hend, hvalue, hexact⟩ :=
    readNumber_whole (whole_toDigits n) hrest.noDigit negative offset
  rw [Nat.ofDigitChars_ten_toDigits] at hvalue hexact
  rw [hwhole, finishDigits_ends hrest negative hend] at h
  split at h
  · next hzero =>
      rw [makeInteger] at h
      split at h
      · next hpositive =>
          cases h
          exact ⟨hend, .inl ⟨hpositive, congrArg Number.natural (hvalue hzero)⟩⟩
      · next hnegative =>
          split at h
          · cases h
            exact ⟨hend, .inr ⟨fun hp => absurd hp hnegative, fun k hk => nomatch hk⟩⟩
          · obtain ⟨rfl, hbinary⟩ := makeBinary_eq_ok h
            exact ⟨hend, .inr ⟨fun hp => absurd hp hnegative, hbinary⟩⟩
  · next hdropped =>
      obtain ⟨rfl, hbinary⟩ := makeBinary_eq_ok h
      exact ⟨hend, .inr ⟨fun _ => Nat.lt_of_not_le fun hn => hdropped (hexact hn), hbinary⟩⟩

/-- An integer that is kept exactly is read. -/
theorem readNumber_exact {n : Nat} (hn : n ≤ maxSignificand) (hrest : Ends rest)
    (negative : Bool) (offset : Nat) :
    ∃ c, readNumber negative ⟨Nat.toDigits 10 n ++ rest, offset⟩ = makeInteger negative n c := by
  obtain ⟨read, hwhole, hend, hvalue, hexact⟩ :=
    readNumber_whole (whole_toDigits n) hrest.noDigit negative offset
  rw [Nat.ofDigitChars_ten_toDigits] at hvalue hexact
  refine ⟨read.2.2.2, ?_⟩
  rw [hwhole, finishDigits_ends hrest negative hend, if_pos (hexact hn), hvalue (hexact hn)]

end Reading

section Fractions

variable {whole digits rest : List Char} {significand : Nat} {exponent e : Int}

theorem finishFraction_ends (hrest : Ends rest) (negative : Bool) (significand : Nat)
    (exponent : Int) (offset : Nat) :
    finishFraction negative significand exponent ⟨rest, offset⟩ =
      makeBinary negative significand exponent ⟨rest, offset⟩ := by
  rw [finishFraction]
  split
  · next heq =>
      dsimp only at heq
      subst heq
      rcases hrest 'e' rfl with h | h <;> cases h
  · next heq =>
      dsimp only at heq
      subst heq
      rcases hrest 'E' rfl with h | h <;> cases h
  · rfl

theorem toList_exponentText (e : Int) : (exponentText e).toList =
    'e' :: (if e < 0 then '-' else '+') :: Nat.toDigits 10 e.natAbs := by
  rw [exponentText]
  split <;> simp

/-- An exponent is read with its sign. -/
theorem readExponent_exponentText (hrest : Ends rest) (he : e.natAbs ≤ maxExponent)
    (negative : Bool) (significand : Nat) (exponent : Int) (offset : Nat) :
    ∃ offset', readExponent negative significand exponent
        ⟨(if e < 0 then '-' else '+') :: (Nat.toDigits 10 e.natAbs ++ rest), offset⟩ =
      makeBinary negative significand (exponent + e) ⟨rest, offset'⟩ := by
  obtain ⟨first, more, hfirst⟩ :=
    List.exists_cons_of_ne_nil (Nat.toDigits_ne_nil (n := e.natAbs) (b := 10))
  have hdigit : first.isDigit = true := isDigit_of_mem_toDigits (n := e.natAbs) (by simp [hfirst])
  have hread (offset : Nat) := readExponentDigits_exact
    (fun d => isDigit_of_mem_toDigits (n := e.natAbs) (d := d)) hrest.noDigit 0 offset
    (by rwa [Nat.ofDigitChars_ten_toDigits])
  rw [Nat.ofDigitChars_ten_toDigits, hfirst, List.cons_append] at hread
  rw [hfirst, List.cons_append]
  by_cases hneg : e < 0
  · refine ⟨offset + '-'.utf8Size + (first :: more).length, ?_⟩
    rw [if_pos hneg, readExponent]
    simp only [Cursor.tail, if_pos hdigit, hread, if_true]
    rw [show exponent - e.natAbs = exponent + e by omega]
  · refine ⟨offset + '+'.utf8Size + (first :: more).length, ?_⟩
    rw [if_neg hneg, readExponent]
    simp only [Cursor.tail, if_pos hdigit, hread, Bool.false_eq_true, if_false]
    rw [show exponent + e.natAbs = exponent + e by omega]

/-- The digits in front of an exponent are all of the number. -/
theorem readNumber_exponent (hwhole : Whole whole) (hrest : Ends rest)
    (hle : Nat.ofDigitChars 10 whole 0 ≤ maxSignificand) (he : e.natAbs ≤ maxExponent)
    (negative : Bool) (offset : Nat) :
    ∃ offset', readNumber negative ⟨whole ++ ((exponentText e).toList ++ rest), offset⟩ =
      makeBinary negative (Nat.ofDigitChars 10 whole 0) e ⟨rest, offset'⟩ := by
  rw [toList_exponentText]
  obtain ⟨read, hread, hend, hvalue, hexact⟩ := readNumber_whole hwhole
    (show NoDigit ('e' :: (if e < 0 then '-' else '+') :: (Nat.toDigits 10 e.natAbs ++ rest)) from
      .cons (by decide)) negative offset
  obtain ⟨offset', hexponent⟩ := readExponent_exponentText hrest he negative read.1 read.2.2.1
    read.2.2.2.tail.offset
  rw [hexact hle, hvalue (hexact hle), Int.natCast_zero, Int.zero_add] at hexponent
  refine ⟨offset', ?_⟩
  rw [List.cons_append, List.cons_append, hread, ← hexponent]
  obtain ⟨significand, count, dropped, stop⟩ := read
  dsimp only at hend hexact hvalue hexponent ⊢
  obtain rfl := hexact hle
  obtain rfl := hvalue rfl
  simp only [finishDigits, hend, Cursor.tail, Int.natCast_zero]

/-- The digits on both sides of a point make up the significand. -/
theorem readNumber_fraction (hwhole : Whole whole) (hdigits : ∀ d ∈ digits, d.isDigit = true)
    (hne : digits ≠ []) (hrest : NoDigit rest)
    (hle : Nat.ofDigitChars 10 (whole ++ digits) 0 ≤ maxSignificand)
    (negative : Bool) (offset : Nat) :
    ∃ offset', readNumber negative ⟨whole ++ '.' :: (digits ++ rest), offset⟩ =
      finishFraction negative (Nat.ofDigitChars 10 (whole ++ digits) 0) (-digits.length)
        ⟨rest, offset'⟩ := by
  rw [Nat.ofDigitChars_append] at hle ⊢
  have hwholeLe := Nat.le_trans (le_ofDigitChars digits _) hle
  obtain ⟨read, hread, hend, hvalue, hexact⟩ := readNumber_whole hwhole
    (show NoDigit ('.' :: (digits ++ rest)) from .cons (by decide)) negative offset
  obtain ⟨significand, count, dropped, stop⟩ := read
  dsimp only at hend hexact hvalue
  obtain rfl := hexact hwholeLe
  obtain rfl := hvalue rfl
  have hfraction := readDigits_exact hdigits hrest _ stop.tail.offset 0 0 hle
  have hlength : ¬ 0 + digits.length + 0 = 0 := by
    have := List.length_pos_of_ne_nil hne
    omega
  refine ⟨stop.tail.offset + digits.length, ?_⟩
  rw [hread]
  simp only [finishDigits, hend, readFraction, Cursor.tail_of_rest hend, hfraction, if_neg hlength]
  rw [Nat.zero_add, Int.natCast_zero, Int.zero_sub]

end Fractions

section Layout

variable {d : Nat} {e : Int} {rest : List Char}

/-- A text that starts with a digit and that is read as a float. -/
def ReadsBinary (body : List Char) : Prop :=
  (∃ first more, body = first :: more ∧ first.isDigit = true) ∧
    ∀ (rest : List Char) (negative : Bool) (offset : Nat), Ends rest →
      ∃ x offset', readNumber negative ⟨body ++ rest, offset⟩ = .ok (.binary x, ⟨rest, offset'⟩)

theorem isDigit_zeros {count : Nat} : ∀ c ∈ List.replicate count '0', c.isDigit = true := by
  intro c hc
  rw [List.eq_of_mem_replicate hc]
  decide

theorem first_ne_zero (hd : d ≠ 0) {first : Char} {more : List Char}
    (h : Nat.toDigits 10 d = first :: more) : first ≠ '0' := by
  rintro rfl
  obtain rfl := eq_nil_of_toDigits h
  have hvalue := Nat.ofDigitChars_ten_toDigits (n := d)
  rw [h] at hvalue
  exact hd hvalue.symm

theorem Whole.of_ne_zero {first : Char} {more : List Char}
    (hdigits : ∀ c ∈ first :: more, c.isDigit = true) (hne : first ≠ '0') :
    Whole (first :: more) :=
  ⟨hdigits, List.cons_ne_nil _ _, fun _ h => absurd (List.cons.inj h).1 hne⟩

theorem Whole.head {digits : List Char} (h : Whole digits) (rest : List Char) :
    ∃ first more, digits ++ rest = first :: more ∧ first.isDigit = true := by
  obtain ⟨first, more, rfl⟩ := List.exists_cons_of_ne_nil h.ne_nil
  exact ⟨first, more ++ rest, rfl, h.isDigit first List.mem_cons_self⟩

theorem le_maxSignificand (hle : d ≤ 10 ^ 18) : d ≤ maxSignificand :=
  Nat.le_trans hle (by decide)

/-- Digits with a point between them. -/
theorem readsBinary_fraction {whole digits : List Char} (hwhole : Whole whole)
    (hdigits : ∀ c ∈ digits, c.isDigit = true) (hne : digits ≠ [])
    (hle : Nat.ofDigitChars 10 (whole ++ digits) 0 ≤ 10 ^ 18) :
    ReadsBinary (whole ++ '.' :: digits) := by
  refine ⟨hwhole.head _, fun rest negative offset hrest => ?_⟩
  obtain ⟨offset', hread⟩ := readNumber_fraction hwhole hdigits hne hrest.noDigit
    (le_maxSignificand hle) negative offset
  have hlength := List.length_pos_of_ne_nil hne
  obtain ⟨x, hx⟩ := Number.makeBinary_neg negative ⟨rest, offset'⟩ hle
    (show (-digits.length : Int) < 0 by omega)
  refine ⟨x, offset', ?_⟩
  rw [List.append_assoc, List.cons_append, hread, finishFraction_ends hrest, hx]

/-- The digits of a whole number, with a zero behind the point. -/
theorem readsBinary_whole (hd : d ≠ 0) {count : Nat}
    (hpoint : (Nat.toDigits 10 d).length + count ≤ 16) :
    ReadsBinary (Nat.toDigits 10 d ++ List.replicate count '0' ++ ['.', '0']) := by
  have hvalue : Nat.ofDigitChars 10 (Nat.toDigits 10 d ++ List.replicate count '0' ++ ['0']) 0 =
      10 * (10 ^ count * d) := by
    rw [Nat.ofDigitChars_append, Nat.ofDigitChars_append, Nat.ofDigitChars_ten_toDigits,
      Nat.ofDigitChars_replicate_zero]
    rfl
  have hlt : d < 10 ^ (Nat.toDigits 10 d).length :=
    (Nat.length_toDigits_le_iff (by decide) Nat.length_toDigits_pos).mp (Nat.le_refl _)
  have hsmall : 10 ^ count * d ≤ 10 ^ 16 := calc
    10 ^ count * d ≤ 10 ^ count * 10 ^ (Nat.toDigits 10 d).length :=
      Nat.mul_le_mul_left _ hlt.le
    _ = 10 ^ ((Nat.toDigits 10 d).length + count) := by rw [← Nat.pow_add, Nat.add_comm]
    _ ≤ 10 ^ 16 := Nat.pow_le_pow_right (by decide) hpoint
  have hwhole : Whole (Nat.toDigits 10 d ++ List.replicate count '0') := by
    obtain ⟨first, more, hfirst⟩ :=
      List.exists_cons_of_ne_nil (Nat.toDigits_ne_nil (n := d) (b := 10))
    rw [hfirst, List.cons_append]
    refine .of_ne_zero ?_ (first_ne_zero hd hfirst)
    rw [← List.cons_append, ← hfirst]
    exact fun c hc => (List.mem_append.mp hc).elim isDigit_of_mem_toDigits (isDigit_zeros c)
  refine readsBinary_fraction hwhole (List.forall_mem_singleton.mpr rfl) (by decide) ?_
  rw [hvalue]
  omega

/-- Digits with a point between them. -/
theorem readsBinary_split (hd : d ≠ 0) (hle : d ≤ 10 ^ 18) (point : Nat)
    (hpos : 0 < point)
    (hlt : point < (Nat.toDigits 10 d).length) :
    ReadsBinary ((Nat.toDigits 10 d).take point ++ '.' :: (Nat.toDigits 10 d).drop point) := by
  have hwhole : Whole ((Nat.toDigits 10 d).take point) := by
    obtain ⟨first, more, hfirst⟩ :=
      List.exists_cons_of_ne_nil (Nat.toDigits_ne_nil (n := d) (b := 10))
    obtain ⟨point, rfl⟩ := Nat.exists_eq_add_of_le' hpos
    rw [hfirst, List.take_succ_cons]
    refine .of_ne_zero ?_ (first_ne_zero hd hfirst)
    rw [← List.take_succ_cons, ← hfirst]
    exact fun c hc => isDigit_of_mem_toDigits (List.mem_of_mem_take hc)
  refine readsBinary_fraction hwhole
    (fun c hc => isDigit_of_mem_toDigits (List.mem_of_mem_drop hc)) ?_ ?_
  · rw [Ne, List.drop_eq_nil_iff]
    omega
  · rwa [List.take_append_drop, Nat.ofDigitChars_ten_toDigits]

/-- Digits behind a zero, a point and more zeros. -/
theorem readsBinary_small (hle : d ≤ 10 ^ 18) (count : Nat) :
    ReadsBinary (['0'] ++ '.' :: (List.replicate count '0' ++ Nat.toDigits 10 d)) := by
  have hvalue : Nat.ofDigitChars 10
      (['0'] ++ (List.replicate count '0' ++ Nat.toDigits 10 d)) 0 = d := by
    rw [Nat.ofDigitChars_append, Nat.ofDigitChars_append, Nat.ofDigitChars_replicate_zero]
    exact Nat.ofDigitChars_ten_toDigits
  refine readsBinary_fraction
    ⟨List.forall_mem_singleton.mpr rfl, by decide, fun more h => (List.cons.inj h).2.symm⟩
    (fun c hc => (List.mem_append.mp hc).elim (isDigit_zeros c) isDigit_of_mem_toDigits) ?_ ?_
  · simp [Nat.toDigits_ne_nil]
  · rwa [hvalue]

/-- A fraction with an exponent behind it. -/
theorem finishFraction_exponentText (hrest : Ends rest) (he : e.natAbs ≤ maxExponent)
    (negative : Bool) (significand : Nat) (exponent : Int) (offset : Nat) :
    ∃ offset', finishFraction negative significand exponent
        ⟨(exponentText e).toList ++ rest, offset⟩ =
      makeBinary negative significand (exponent + e) ⟨rest, offset'⟩ := by
  rw [toList_exponentText, List.cons_append, List.cons_append]
  exact readExponent_exponentText hrest he negative significand exponent _

/-- Digits with an exponent, and with a point behind the first one if there are more. -/
theorem readsBinary_exponent (hd : d ≠ 0) (hle : d ≤ 10 ^ 18) (hwritable : Writable d e.toNat)
    (hleast : -420 ≤ e) {first : Char} {more : List Char}
    (htext : Nat.toDigits 10 d = first :: more) :
    ReadsBinary ([first] ++ ((if more = [] then [] else '.' :: more) ++
      (exponentText (more.length + e)).toList)) := by
  have hfirst : first.isDigit = true := isDigit_of_mem_toDigits (n := d) (by simp [htext])
  have hwhole : Whole [first] := .of_ne_zero (by simpa using hfirst) (first_ne_zero hd htext)
  have hvalue : Nat.ofDigitChars 10 ([first] ++ more) 0 = d := by
    rw [List.singleton_append, ← htext, Nat.ofDigitChars_ten_toDigits]
  have hlength : more.length + 1 ≤ 19 := by
    rw [← List.length_cons, ← htext]
    exact (Nat.length_toDigits_le_iff (by decide) (by decide)).mpr (Nat.lt_of_le_of_lt hle
      (by decide))
  have hexponent : (more.length + e).natAbs ≤ maxExponent := by
    have := hwritable.exponent_le hd
    rw [maxExponent]
    omega
  refine ⟨hwhole.head _, fun rest negative offset hrest => ?_⟩
  by_cases hmore : more = []
  · subst hmore
    rw [List.append_nil] at hvalue
    obtain ⟨offset', hread⟩ := readNumber_exponent hwhole hrest
      (by rw [hvalue]; exact le_maxSignificand hle) hexponent negative offset
    rw [hvalue, List.length_nil, Int.natCast_zero, Int.zero_add] at hread
    obtain ⟨x, hx⟩ := Number.makeBinary_ok negative ⟨rest, offset'⟩ hd hle hwritable
    refine ⟨x, offset', hx ▸ ?_⟩
    simpa only [if_true, List.nil_append, List.append_assoc, List.length_nil, Int.natCast_zero,
      Int.zero_add] using hread
  · have hbehind : NoDigit ((exponentText (more.length + e)).toList ++ rest) := by
      rw [toList_exponentText]
      exact .cons (by decide)
    obtain ⟨middle, hread⟩ := readNumber_fraction hwhole
      (fun c hc => isDigit_of_mem_toDigits (n := d) (by simp [htext, hc])) hmore hbehind
      (by rw [hvalue]; exact le_maxSignificand hle) negative offset
    obtain ⟨offset', hfinish⟩ := finishFraction_exponentText hrest hexponent negative d
      (-more.length) middle
    obtain ⟨x, hx⟩ := Number.makeBinary_ok negative ⟨rest, offset'⟩ hd hle hwritable
    refine ⟨x, offset', hx ▸ ?_⟩
    rw [hvalue, hfinish, Int.neg_add_cancel_left] at hread
    simpa only [if_neg hmore, List.append_assoc, List.cons_append] using hread

/-- The text of a decimal is read as that decimal. -/
theorem readsBinary_render (hd : d ≠ 0) (hle : d ≤ 10 ^ 18) (hwritable : Writable d e.toNat)
    (hleast : -420 ≤ e) : ReadsBinary (jsonLayout.render d e).toList := by
  have htext : (toString d).toList = Nat.toDigits 10 d := by
    simp
  have hlength : (toString d).length = (Nat.toDigits 10 d).length := by
    rw [← htext, String.length_toList]
  rw [DecimalLayout.render]
  simp only [hlength, htext]
  split
  · next hpositional =>
      have hto : (Nat.toDigits 10 d).length + e ≤ 16 := hpositional.2
      split
      · next he =>
          obtain ⟨count, rfl⟩ := Int.eq_ofNat_of_zero_le he
          have hpoint : (Nat.toDigits 10 d).length + count ≤ 16 := by omega
          simpa [zeros, htext] using readsBinary_whole hd hpoint
      · split
        · simpa using readsBinary_split hd hle ((Nat.toDigits 10 d).length + e).toNat
            (by omega) (by omega)
        · simpa [zeros, htext] using readsBinary_small hle
            (-((Nat.toDigits 10 d).length + e)).toNat
  · split
    · next hnil => exact absurd hnil Nat.toDigits_ne_nil
    · next first hfirst =>
        have hread := readsBinary_exponent hd hle hwritable hleast hfirst
        rw [hfirst]
        simpa using hread
    · next first more hmany hfirst =>
        have hread := readsBinary_exponent hd hle hwritable hleast hfirst
        rw [if_neg hmany] at hread
        rw [hfirst, List.length_cons,
          show ((more.length + 1 : Nat) : Int) + e - 1 = more.length + e by omega]
        simpa using hread

end Layout

section Texts

/-- What may be read where a number is written: one that is not kept exactly, or no natural number,
is read as some number that is not natural, every other one as itself. -/
inductive Respelled : Number → Number → Prop where
  | natural (n : Nat) : Respelled (.natural n) (.natural n)
  | other {n m : Number} (hn : ∀ k, n = .natural k → maxSignificand < k)
      (hm : ∀ k, m ≠ .natural k) : Respelled n m

/-- Numbers that are in the range of the reader. -/
inductive Readable : Number → Prop where
  | natural {n : Nat} (h : n ≤ maxSignificand) : Readable (.natural n)
  | negative {n : Nat} (hpos : 0 < n) (hle : n ≤ 9223372036854775808) : Readable (.negative n)
  | binary (x : Binary) : Readable (.binary x)

/-- A text that is read as a spelling of a number, and that is accepted if the number is in
range. -/
structure Spelling (n : Number) (negative : Bool) (body : List Char) : Prop where
  head : ∃ first more, body = first :: more ∧ first.isDigit = true
  respelled {rest : List Char} (hrest : Ends rest) {offset : Nat} {m : Number} {after : Cursor}
    (h : readNumber negative ⟨body ++ rest, offset⟩ = .ok (m, after)) :
    Respelled n m ∧ after.rest = rest
  accepted (hn : Readable n) {rest : List Char} (hrest : Ends rest) (offset : Nat) :
    ∃ read, readNumber negative ⟨body ++ rest, offset⟩ = .ok read

theorem spelling_natural (n : Nat) : Spelling (.natural n) false (Nat.toDigits 10 n) where
  head := by simpa using (whole_toDigits n).head []
  respelled hrest _ _ _ h := by
    obtain ⟨hend, ⟨-, rfl⟩ | ⟨hlarge, hm⟩⟩ := readNumber_toDigits hrest h
    · exact ⟨.natural n, hend⟩
    · refine ⟨.other ?_ hm, hend⟩
      rintro k ⟨⟩
      exact hlarge rfl
  accepted hn _ hrest offset := by
    cases hn with
    | natural hn =>
        obtain ⟨c, hread⟩ := readNumber_exact hn hrest false offset
        exact ⟨_, hread⟩

theorem spelling_negative (n : Nat) : Spelling (.negative n) true (Nat.toDigits 10 n) where
  head := by simpa using (whole_toDigits n).head []
  respelled hrest _ _ _ h := by
    obtain ⟨hend, ⟨hpositive, -⟩ | ⟨-, hm⟩⟩ := readNumber_toDigits hrest h
    · cases hpositive
    · exact ⟨.other (fun _ hk => nomatch hk) hm, hend⟩
  accepted hn _ hrest offset := by
    cases hn with
    | negative hpos hle =>
        obtain ⟨c, hread⟩ := readNumber_exact (Nat.le_trans hle (by decide)) hrest true offset
        rw [makeInteger, if_neg (by decide), if_pos ⟨hpos, hle⟩] at hread
        exact ⟨_, hread⟩

theorem ReadsBinary.spelling {x : Binary} {negative : Bool} {body : List Char}
    (h : ReadsBinary body) : Spelling (.binary x) negative body where
  head := h.1
  respelled {rest} hrest {offset} _ _ hread := by
    obtain ⟨y, offset', hy⟩ := h.2 rest negative offset hrest
    cases hy.symm.trans hread
    exact ⟨.other (fun _ hk => nomatch hk) (fun _ hk => nomatch hk), rfl⟩
  accepted _ rest hrest offset := by
    obtain ⟨y, offset', hy⟩ := h.2 rest negative offset hrest
    exact ⟨_, hy⟩

/-- Both zeros are written with a zero behind the point. -/
theorem readsBinary_zero : ReadsBinary ['0', '.', '0'] :=
  readsBinary_small (d := 0) (Nat.zero_le _) 0

/-- The text of a number is a sign and a spelling of the number. -/
theorem render_spec (n : Number) : ∃ negative body, Spelling n negative body ∧
    n.render.toList = (if negative then ['-'] else []) ++ body := by
  cases n with
  | natural n => exact ⟨false, _, spelling_natural n, by simp [Number.render]⟩
  | negative n => exact ⟨true, _, spelling_negative n, by simp [Number.render]⟩
  | binary x =>
      refine ⟨x.negative, if x.isZero then ['0', '.', '0']
        else (jsonLayout.render x.shortest.1 x.shortest.2).toList, ?_, ?_⟩
      · refine ReadsBinary.spelling ?_
        split
        · exact readsBinary_zero
        · next hzero =>
            have hzero : x.isZero = false := by simpa using hzero
            obtain ⟨hd, hle, hwritable⟩ := x.shortest_writable hzero
            exact readsBinary_render hd hle hwritable (x.shortest_exponent_ge hzero)
      · rw [Number.render, Binary.render, String.toList_append]
        congr 1
        · split <;> rfl
        · split <;> rfl

end Texts

end ComponentAtlas.Json
