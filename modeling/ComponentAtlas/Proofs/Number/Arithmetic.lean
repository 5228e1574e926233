import ComponentAtlas.Proofs.Number.Packing

/-!
# Products and quotients of floats

A product is finite if the product of the exact values is not too great, and a quotient by at
least two is not above the power of two that bounds its dividend.
-/

namespace ComponentAtlas.Number

open Float.Model Float.Model.UnpackedFloat

/-- The value of a float in units of the least positive one. -/
def magnitude : UnpackedFloat → Nat
  | .finite _ m e _ => m * 2 ^ (e + 1074).toNat
  | _ => 0

/-- The tie between the greatest float and the power of two above it, in the units of products. -/
def lastTie : Nat := (2 ^ 54 - 1) * 2 ^ 3118

/-- Whether the value of a float is below a power of two. -/
def Below (top : Int) : UnpackedFloat → Prop
  | .finite _ m e _ => m.log2 + e < top
  | _ => True

section Logarithms

variable {a b k n : Nat}

theorem log2_le_of_lt_two_pow (h : k < 2 ^ (n + 1)) : k.log2 ≤ n := by
  by_cases hk : k = 0
  · simp [hk]
  · exact Nat.lt_succ_iff.mp ((Nat.log2_lt hk).mpr h)

theorem log2_le_of_le_two_pow (h : k ≤ 2 ^ n) : k.log2 ≤ n := by
  refine log2_le_of_lt_two_pow ?_
  rw [Nat.pow_succ]
  have := Nat.two_pow_pos n
  omega

theorem log2_mul_le (ha : a ≠ 0) (hb : b ≠ 0) : a.log2 + b.log2 ≤ (a * b).log2 := by
  rw [Nat.le_log2 (Nat.mul_ne_zero ha hb), Nat.pow_add]
  exact Nat.mul_le_mul (Nat.log2_self_le ha) (Nat.log2_self_le hb)

theorem log2_div_le (hb : b ≠ 0) : (a / b).log2 ≤ a.log2 - b.log2 := by
  have hlt : a / 2 ^ b.log2 < 2 ^ (a.log2 - b.log2 + 1) := div_lt_of_log2_lt (by omega)
  refine log2_le_of_lt_two_pow (Nat.lt_of_le_of_lt ?_ hlt)
  exact Nat.div_le_div_left (Nat.log2_self_le hb) (Nat.two_pow_pos _)

theorem le_log2_div (hb : b ≠ 0) (hlt : b.log2 < a.log2) :
    a.log2 - b.log2 - 1 ≤ (a / b).log2 := by
  have hle : 2 ^ (a.log2 - b.log2 - 1) ≤ a / b := by
    rw [Nat.le_div_iff_mul_le (Nat.pos_of_ne_zero hb)]
    calc 2 ^ (a.log2 - b.log2 - 1) * b
        ≤ 2 ^ (a.log2 - b.log2 - 1) * 2 ^ (b.log2 + 1) :=
          Nat.mul_le_mul_left _ (Nat.le_of_lt Nat.lt_log2_self)
      _ = 2 ^ a.log2 := by
          rw [← Nat.pow_add]
          congr 1
          omega
      _ ≤ a := Nat.log2_self_le (by rintro rfl; simp at hlt)
  exact (Nat.le_log2 (by have := Nat.two_pow_pos (a.log2 - b.log2 - 1); omega)).mpr hle

theorem log2_shiftLeft (ha : a ≠ 0) : (a <<< n).log2 = a.log2 + n := by
  have hpos := Nat.two_pow_pos n
  rw [Nat.shiftLeft_eq, Nat.log2_eq_iff (Nat.mul_ne_zero ha hpos.ne'), Nat.pow_add,
    Nat.add_right_comm, Nat.pow_add]
  exact ⟨Nat.mul_le_mul_right _ (Nat.log2_self_le ha),
    Nat.mul_lt_mul_of_pos_right Nat.lt_log2_self hpos⟩

end Logarithms

section Settling

variable {sign : Sign} {m k : Nat} {e top : Int} {acc : Accuracy}

theorem fits_settle (hk : k ≤ 2 ^ 53) (hlong : 2 ^ 52 ≤ k ∨ e = -1074) (he : -1074 ≤ e)
    (htop : e ≤ 971) (hcarry : k = 2 ^ 53 → e ≤ 970) : Fits (settle sign k e) := by
  rw [settle]
  split
  · exact .zero sign
  · rename_i hzero
    have hpos : 0 < k := Nat.pos_of_ne_zero hzero
    split
    · rename_i hlt
      by_cases hlo : 2 ^ 52 ≤ k
      · exact .normal sign hpos hlo hlt he htop
      · obtain rfl := hlong.resolve_left hlo
        exact .subnormal sign hpos (Nat.lt_of_not_le hlo)
    · have := hcarry (by omega)
      exact .normal sign (by decide) (by decide) (by decide) (by omega) (by omega)

theorem magnitude_settle (hk : k ≤ 2 ^ 53) (he : -1074 ≤ e) :
    magnitude (settle sign k e) = k * 2 ^ (e + 1074).toNat := by
  rw [settle]
  split
  · simp_all [magnitude]
  · split
    · rfl
    · obtain rfl : k = 2 ^ 53 := by omega
      have : (e + 1 + 1074).toNat = (e + 1074).toNat + 1 := by omega
      simp only [magnitude, this]
      ring

theorem below_settle (hk : k ≤ 2 ^ 53) (hlog : k.log2 + e < top) : Below top (settle sign k e) := by
  rw [settle]
  split
  · trivial
  · split
    · exact hlog
    · obtain rfl : k = 2 ^ 53 := by omega
      rw [Nat.log2_two_pow] at hlog
      simp only [Below, Nat.log2_two_pow]
      omega

/-- The cut leaves a mantissa of full length, unless the exponent is least. -/
theorem cutMantissa_long (hwide : 52 ≤ m.log2 ∨ e ≤ -1074) (acc : Accuracy) :
    2 ^ 52 ≤ cutMantissa m e acc ∨ e + cutBits m e = -1074 := by
  by_cases hleast : e + cutBits m e = -1074
  · exact .inr hleast
  · left
    have hm : m ≠ 0 := by
      rintro rfl
      rw [cutBits] at hleast
      simp at hwide hleast
      omega
    have hcut : cutBits m e + 52 = m.log2 := by
      rw [cutBits] at *
      omega
    refine Nat.le_trans ?_ (cutMantissa_bounds m e acc).1
    rw [Nat.le_div_iff_mul_le (Nat.two_pow_pos _), ← Nat.pow_add, Nat.add_comm, hcut]
    exact Nat.log2_self_le hm

/-- Rounding reaches at most the power of two above the exact value. -/
theorem log2_cutMantissa (htop : m.log2 + e < top) (hleast : -1074 ≤ top) :
    (cutMantissa m e acc).log2 + (e + cutBits m e) < top + 1 := by
  obtain ⟨-, hhi, -⟩ := cutMantissa_bounds m e acc
  by_cases hcut : cutBits m e ≤ m.log2 + 1
  · have hdiv : m / 2 ^ cutBits m e < 2 ^ (m.log2 + 1 - cutBits m e) :=
      div_lt_of_log2_lt (by omega)
    have hlog := log2_le_of_le_two_pow (Nat.le_trans hhi hdiv)
    omega
  · have hdiv : m / 2 ^ cutBits m e < 2 ^ 0 := div_lt_of_log2_lt (by omega)
    have hlog : (cutMantissa m e acc).log2 ≤ 0 := log2_le_of_le_two_pow (by omega)
    rw [cutBits] at *
    omega

/-- A result far enough below the greatest float is finite and stays there. -/
theorem round_below (sign : Sign) (hwide : 52 ≤ m.log2 ∨ e ≤ -1074)
    (htop : m.log2 + e < top) (hleast : -1074 ≤ top) (hgreatest : top ≤ 1022) :
    Fits (roundWithAccuracy Format.binary64 sign m e acc) ∧
      Below (top + 1) (roundWithAccuracy Format.binary64 sign m e acc) := by
  rw [roundWithAccuracy_eq]
  have hk := (cutMantissa_bounds m e acc).2.2
  have hexp : e + cutBits m e ≤ 970 := by
    rw [cutBits]
    omega
  exact ⟨fits_settle hk (cutMantissa_long hwide acc) (le_add_cutBits m e) (by omega) fun _ => hexp,
    below_settle hk (log2_cutMantissa htop hleast)⟩

/-- A result is not below the power of two under the exact value. -/
theorem round_above (sign : Sign) (hm : m ≠ 0) (hnormal : -1074 ≤ m.log2 + e) :
    ∃ k f hk, roundWithAccuracy Format.binary64 sign m e acc = .finite sign k f hk ∧
      m.log2 + e ≤ k.log2 + f := by
  obtain ⟨hlo, -, hhi⟩ := cutMantissa_bounds m e acc
  have hcut : cutBits m e ≤ m.log2 := by
    rw [cutBits]
    omega
  have hpow : 2 ^ (m.log2 - cutBits m e) ≤ cutMantissa m e acc := by
    refine Nat.le_trans ?_ hlo
    rw [Nat.le_div_iff_mul_le (Nat.two_pow_pos _), ← Nat.pow_add, Nat.sub_add_cancel hcut]
    exact Nat.log2_self_le hm
  have hpos : cutMantissa m e acc ≠ 0 := by
    have := Nat.two_pow_pos (m.log2 - cutBits m e)
    omega
  have hlog := (Nat.le_log2 hpos).mpr hpow
  rw [roundWithAccuracy_eq, settle, dif_neg hpos]
  split
  · exact ⟨_, _, Nat.pos_of_ne_zero hpos, rfl, by omega⟩
  · rename_i hfull
    obtain hfull : cutMantissa m e acc = 2 ^ 53 := by omega
    rw [hfull, Nat.log2_two_pow] at hlog
    refine ⟨_, _, by decide, rfl, ?_⟩
    rw [Nat.log2_two_pow]
    omega

/-- The exact value of a result below the last tie that rounds to a finite float. -/
theorem round_fits (sign : Sign) (hwide : 52 ≤ m.log2 ∨ e ≤ -1074) (he : -2148 ≤ e)
    (hlt : m * 2 ^ (e + 2148).toNat < lastTie) :
    Fits (roundWithAccuracy Format.binary64 sign m e .exact) := by
  -- the powers are kept apart from their values
  obtain ⟨last, hlast⟩ : ∃ last, last = 3118 := ⟨_, rfl⟩
  rw [lastTie, ← hlast] at hlt
  rw [roundWithAccuracy_eq]
  have hk := (cutMantissa_bounds m e .exact).2.2
  have htop : e + cutBits m e ≤ 971 := by
    by_contra hgt
    have hm : m ≠ 0 := by
      rintro rfl
      rw [cutBits] at hgt
      simp at hwide hgt
      omega
    have hlog : 1024 ≤ m.log2 + e := by
      rw [cutBits] at hgt
      omega
    have hpow : 2 ^ 54 * 2 ^ last ≤ m * 2 ^ (e + 2148).toNat := calc
      2 ^ 54 * 2 ^ last = 2 ^ (54 + last) := (Nat.pow_add ..).symm
      _ ≤ 2 ^ (m.log2 + (e + 2148).toNat) := Nat.pow_le_pow_right (by decide) (by omega)
      _ = 2 ^ m.log2 * 2 ^ (e + 2148).toNat := Nat.pow_add ..
      _ ≤ _ := Nat.mul_le_mul_right _ (Nat.log2_self_le hm)
    generalize m * 2 ^ (e + 2148).toNat = exact at *
    generalize 2 ^ last = unit at *
    omega
  refine fits_settle hk (cutMantissa_long hwide .exact) (le_add_cutBits m e) htop fun hfull => ?_
  by_contra hgt
  -- the carry to the next power of two comes from half a last bit below it
  have hnear := cutMantissa_near m e
  rw [hfull] at hnear
  have hpow : 2 ^ cutBits m e * 2 ^ (e + 2148).toNat = 2 * 2 ^ last := by
    rw [← Nat.pow_add, ← Nat.pow_succ']
    congr 1
    omega
  have hscaled := Nat.mul_le_mul_right (2 ^ (e + 2148).toNat) hnear
  rw [Nat.add_mul, Nat.mul_assoc, Nat.mul_assoc, hpow, Nat.mul_assoc] at hscaled
  generalize m * 2 ^ (e + 2148).toNat = exact at *
  generalize 2 ^ last = unit at *
  omega

/-- The last bit of a mantissa of full length is a small part of it. -/
theorem cutMantissa_mul_le (hm : m ≠ 0) (hnormal : -1022 ≤ m.log2 + e) :
    2 ^ 53 * (cutMantissa m e .exact * 2 ^ cutBits m e) ≤ (2 ^ 53 + 1) * m := by
  have hnear := cutMantissa_near m e
  by_cases hcut : cutBits m e = 0
  · rw [hcut, pow_zero, Nat.mul_one] at hnear ⊢
    omega
  · have hlog : 52 + cutBits m e = m.log2 := by
      rw [cutBits] at *
      omega
    have hbit : 2 ^ 52 * 2 ^ cutBits m e ≤ m := by
      rw [← Nat.pow_add, hlog]
      exact Nat.log2_self_le hm
    omega

theorem magnitude_round (sign : Sign) (he : -1074 ≤ e) :
    magnitude (roundWithAccuracy Format.binary64 sign m e acc) =
      cutMantissa m e acc * 2 ^ cutBits m e * 2 ^ (e + 1074).toNat := by
  rw [roundWithAccuracy_eq,
    magnitude_settle (cutMantissa_bounds m e acc).2.2 (le_add_cutBits m e), Nat.mul_assoc,
    ← Nat.pow_add]
  congr 2
  omega

/-- Rounding adds at most half a last bit. -/
theorem magnitude_round_le (sign : Sign) (hm : m ≠ 0) (he : -1074 ≤ e)
    (hnormal : -1022 ≤ m.log2 + e) :
    2 ^ 53 * magnitude (roundWithAccuracy Format.binary64 sign m e .exact) ≤
      (2 ^ 53 + 1) * (m * 2 ^ (e + 1074).toNat) := by
  rw [magnitude_round sign he, ← Nat.mul_assoc (2 ^ 53), ← Nat.mul_assoc (2 ^ 53 + 1)]
  exact Nat.mul_le_mul_right _ (cutMantissa_mul_le hm hnormal)

end Settling

section Operations

variable {x y : UnpackedFloat} {top : Int}

theorem fits_bounds {s : Sign} {m : Nat} {e : Int} {hm : 0 < m} (h : Fits (.finite s m e hm)) :
    m < 2 ^ 53 ∧ (52 ≤ m.log2 ∨ e = -1074) ∧ -1074 ≤ e ∧ e ≤ 971 := by
  cases h with
  | subnormal _ _ hhi => exact ⟨by omega, .inr rfl, by decide, by decide⟩
  | normal _ _ hlo hhi he he' => exact ⟨hhi, .inl ((Nat.le_log2 (by omega)).mpr hlo), he, he'⟩

/-- Bits that are zero are cut off without rounding. -/
theorem round_of_fits {s : Sign} {m : Nat} {e : Int} {hm : 0 < m} (h : Fits (.finite s m e hm))
    (t : Sign) (j : Nat) :
    roundWithAccuracy Format.binary64 t (m * 2 ^ j) (e - j) .exact = .finite t m e hm := by
  obtain ⟨hlt, hwide, he, -⟩ := fits_bounds h
  have hlog : (m * 2 ^ j).log2 = m.log2 + j := by
    rw [← Nat.shiftLeft_eq, log2_shiftLeft hm.ne']
  have hlog' : m.log2 < 53 := (Nat.log2_lt hm.ne').mpr hlt
  have hcut : cutBits (m * 2 ^ j) (e - j) = j := by
    rw [cutBits]
    omega
  have hpos := Nat.two_pow_pos j
  have hexact : cutMantissa (m * 2 ^ j) (e - j) .exact = m := by
    have hlo := (cutMantissa_bounds (m * 2 ^ j) (e - j) .exact).1
    have hnear := cutMantissa_near (m * 2 ^ j) (e - j)
    rw [hcut] at hlo hnear
    rw [Nat.mul_div_cancel _ hpos] at hlo
    generalize cutMantissa (m * 2 ^ j) (e - j) .exact = k at *
    refine Nat.le_antisymm (Nat.le_of_lt_succ ?_) hlo
    by_contra hgt
    have := Nat.mul_le_mul_right (2 ^ j) (Nat.le_of_not_lt hgt)
    rw [Nat.succ_mul] at this
    omega
  rw [roundWithAccuracy_eq, hexact, hcut, settle, dif_neg hm.ne', if_pos hlt]
  congr 1
  omega

/-- A product is finite if the exact product is below the last tie. -/
theorem fits_mul (hx : Fits x) (hy : Fits y) (hlt : magnitude x * magnitude y < lastTie) :
    Fits (mul Format.binary64 x y) := by
  cases x with
  | infinity s => cases hx
  | notANumber => cases hx
  | zero s =>
      cases y with
      | infinity t => cases hy
      | notANumber => cases hy
      | zero t => exact .zero (s * t)
      | finite t n f hn => exact .zero (s * t)
  | finite s m e hm =>
      cases y with
      | infinity t => cases hy
      | notANumber => cases hy
      | zero t => exact .zero (s * t)
      | finite t n f hn =>
          obtain ⟨-, hwide, he, he'⟩ := fits_bounds hx
          obtain ⟨-, hwide', hf, hf'⟩ := fits_bounds hy
          have hlog := log2_mul_le hm.ne' hn.ne'
          refine round_fits (s * t) (by omega) (by omega) ?_
          convert hlt using 1
          simp only [magnitude]
          rw [show (e + f + 2148).toNat = (e + 1074).toNat + (f + 1074).toNat by omega, Nat.pow_add]
          ring

/-- The quotient of two mantissas has full length, unless its exponent is least. -/
theorem divCore_spec {m n : Nat} (hm : m ≠ 0) (hn : n ≠ 0) (e f : Int) :
    ∃ q t acc, divCore Format.binary64 m e n f = (q, t, acc) ∧ (52 ≤ q.log2 ∨ t ≤ -1074) ∧
      (q.log2 + t ≤ m.log2 + e - (n.log2 + f) ∨ q.log2 + t ≤ -1074) := by
  refine ⟨_, _, _, rfl, ?_⟩
  simp only [targetExponent_eq, totalExponent]
  generalize hshift : (e - f - min (e - f) _).toNat = shift
  have hlog := log2_shiftLeft (n := shift) hm
  have hle := log2_div_le (a := m <<< shift) hn
  by_cases hlt : n.log2 < (m <<< shift).log2
  · have := le_log2_div hn hlt
    omega
  · omega

/-- A quotient by at least two stays below the bound of its dividend. -/
theorem fits_div (hx : Fits x) (hbelow : Below top x) {t : Sign} {n : Nat} {f : Int} (hn : 0 < n)
    (hlow : 1 ≤ n.log2 + f) (hleast : -1073 < top) (hgreatest : top ≤ 1022) :
    Fits (UnpackedFloat.div Format.binary64 x (.finite t n f hn)) ∧
      Below top (UnpackedFloat.div Format.binary64 x (.finite t n f hn)) := by
  cases x with
  | infinity s => cases hx
  | notANumber => cases hx
  | zero s => exact ⟨.zero (s / t), trivial⟩
  | finite s m e hm =>
      obtain ⟨q, g, acc, hcore, hwide, htop⟩ := divCore_spec hm.ne' hn.ne' e f
      change m.log2 + e < top at hbelow
      simp only [UnpackedFloat.div, hcore]
      rw [← Int.sub_add_cancel top 1]
      exact round_below (s / t) hwide (by omega) (by omega) (by omega)

end Operations

end ComponentAtlas.Number
