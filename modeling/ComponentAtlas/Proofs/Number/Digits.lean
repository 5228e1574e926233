import ComponentAtlas.Number.Shortest
import ComponentAtlas.Proofs.Number.Scaling

/-!
# The digits of a float

The shortest digits of a float are not zero and at most eighteen in number, and what they stand
for is not above the interval of the float. So they are the digits of a decimal that can be read.
-/

namespace ComponentAtlas.Number

section Powers

/-- Fractions are compared with decimals in natural numbers. -/
theorem mul_zpow_le_iff {a b d : Nat} (hd : 0 < d) (e : Int) :
    (a : ℚ) * 10 ^ e ≤ b / d ↔ a * 10 ^ e.toNat * d ≤ b * 10 ^ (-e).toNat := by
  have hd' : (0 : ℚ) < d := by exact_mod_cast hd
  have hpow : (10 : ℚ) ^ e = 10 ^ e.toNat / 10 ^ (-e).toNat := by
    obtain ⟨k, rfl | rfl⟩ := e.eq_nat_or_neg
    · simp
    · simp
  rw [hpow, le_div_iff₀ hd', mul_div_assoc', div_mul_eq_mul_div, div_le_iff₀ (by positivity)]
  exact_mod_cast Iff.rfl

end Powers

namespace Interval

variable {i : Interval} {e top : Int} {d count : Nat}

/-- The value between the ends. -/
def ratio (i : Interval) : ℚ :=
  i.value / i.denominator

/-- The intervals of floats. -/
structure Sound (i : Interval) : Prop where
  denominator_pos : 0 < i.denominator
  value_pos : 0 < i.value
  value_le : i.value ≤ i.high

theorem le_floorAt_iff (h : i.Sound) : d ≤ i.floorAt e ↔ (d : ℚ) * 10 ^ e ≤ i.ratio := by
  have hpos : 0 < i.denominator * 10 ^ e.toNat :=
    Nat.mul_pos h.denominator_pos (Nat.pow_pos (by decide))
  rw [ratio, mul_zpow_le_iff h.denominator_pos, Nat.mul_assoc, Nat.mul_comm (10 ^ _)]
  exact Nat.le_div_iff_mul_le hpos

theorem floorAt_lt_iff (h : i.Sound) : i.floorAt e < d ↔ i.ratio < d * 10 ^ e := by
  rw [← not_le, le_floorAt_iff h, not_le]

/-- A number with its count of digits. -/
theorem pow_length_toDigits {n : Nat} (hn : 0 < n) :
    (10 : ℚ) ^ ((Nat.toDigits 10 n).length - 1 : Int) ≤ n ∧
      (n : ℚ) < 10 ^ ((Nat.toDigits 10 n).length : Int) := by
  have hpos : 0 < (Nat.toDigits 10 n).length := Nat.length_toDigits_pos
  constructor
  · have hle : 10 ^ ((Nat.toDigits 10 n).length - 1) ≤ n := by
      by_contra hlt
      by_cases hone : (Nat.toDigits 10 n).length - 1 = 0
      · rw [hone] at hlt
        omega
      · have := (Nat.length_toDigits_le_iff (by decide) (Nat.pos_of_ne_zero hone)).mpr
          (Nat.lt_of_not_le hlt)
        omega
    rw [show ((Nat.toDigits 10 n).length - 1 : Int) = ((Nat.toDigits 10 n).length - 1 : Nat) by
      omega, zpow_natCast]
    exact_mod_cast hle
  · rw [zpow_natCast]
    exact_mod_cast (Nat.length_toDigits_le_iff (by decide) hpos).mp (Nat.le_refl _)

/-- The magnitude is the exponent of the greatest power of ten that is not above the value. -/
theorem magnitude_spec (h : i.Sound) :
    (10 : ℚ) ^ i.magnitude ≤ i.ratio ∧ i.ratio < 10 ^ (i.magnitude + 1) := by
  obtain ⟨hvlo, hvhi⟩ := pow_length_toDigits h.value_pos
  obtain ⟨hdlo, hdhi⟩ := pow_length_toDigits h.denominator_pos
  have hd : (0 : ℚ) < i.denominator := by exact_mod_cast h.denominator_pos
  simp only [magnitude]
  generalize ((Nat.toDigits 10 i.value).length : Int) = v at *
  generalize ((Nat.toDigits 10 i.denominator).length : Int) = w at *
  have hhigh : i.ratio < 10 ^ (v - w + 1) := by
    rw [ratio, div_lt_iff₀ hd]
    calc (i.value : ℚ) < 10 ^ v := hvhi
      _ = 10 ^ (v - w + 1) * 10 ^ (w - 1) := by
          rw [← zpow_add₀ (by norm_num)]
          congr 1
          ring
      _ ≤ 10 ^ (v - w + 1) * i.denominator := by gcongr
  have hlow : (10 : ℚ) ^ (v - w - 1) ≤ i.ratio := by
    rw [ratio, le_div_iff₀ hd]
    calc (10 : ℚ) ^ (v - w - 1) * i.denominator ≤ 10 ^ (v - w - 1) * 10 ^ w := by gcongr
      _ = 10 ^ (v - 1) := by
          rw [← zpow_add₀ (by norm_num)]
          congr 1
          ring
      _ ≤ i.value := hvlo
  split
  · rename_i hzero
    have hlt : i.ratio < (1 : Nat) * 10 ^ (v - w) := (floorAt_lt_iff h).mp (by omega)
    rw [Nat.cast_one, one_mul] at hlt
    exact ⟨hlow, by rwa [sub_add_cancel]⟩
  · rename_i hpos
    have hle : ((1 : Nat) : ℚ) * 10 ^ (v - w) ≤ i.ratio := (le_floorAt_iff h).mp (by omega)
    rw [Nat.cast_one, one_mul] at hle
    exact ⟨hle, hhigh⟩

/-- On a grid below the magnitude the digits are not zero, and few. -/
theorem floorAt_bounds (h : i.Sound) (count : Nat) :
    0 < i.floorAt (i.magnitude - count) ∧ i.floorAt (i.magnitude - count) < 10 ^ (count + 1) := by
  obtain ⟨hlow, hhigh⟩ := magnitude_spec h
  constructor
  · refine (le_floorAt_iff h).mpr ?_
    rw [Nat.cast_succ, Nat.cast_zero, zero_add, one_mul]
    exact le_trans (zpow_le_zpow_right₀ (by norm_num) (by omega)) hlow
  · refine (floorAt_lt_iff h).mpr (lt_of_lt_of_eq hhigh ?_)
    push_cast
    rw [← zpow_natCast, ← zpow_add₀ (by norm_num)]
    congr 1
    push_cast
    ring

/-- A decimal that is not above the interval, of at most eighteen digits. -/
structure Decimal (i : Interval) (d : Nat × Int) : Prop where
  ne_zero : d.1 ≠ 0
  le : d.1 ≤ 10 ^ 18
  exponent_ge : i.magnitude - 17 ≤ d.2
  le_high : (d.1 : ℚ) * 10 ^ d.2 ≤ i.high / i.denominator

theorem le_high_of_holds (h : i.Sound) (hholds : i.holds d e = true) :
    (d : ℚ) * 10 ^ e ≤ i.high / i.denominator := by
  rw [mul_zpow_le_iff h.denominator_pos]
  rw [holds] at hholds
  split at hholds
  · simp only [Bool.and_eq_true, decide_eq_true_eq] at hholds
    exact hholds.2
  · simp only [Bool.and_eq_true, decide_eq_true_eq] at hholds
    exact Nat.le_of_lt hholds.2

theorem pick?_spec {found : Nat × Int} (hpick : i.pick? e = some found) :
    (found = (i.floorAt e, e) ∨ found = (i.floorAt e + 1, e)) ∧
      i.holds found.1 found.2 = true := by
  rw [pick?] at hpick
  split at hpick
  · rename_i hboth
    rw [Bool.and_eq_true] at hboth
    cases hpick
    split
    · exact ⟨.inr rfl, hboth.2⟩
    · exact ⟨.inl rfl, hboth.1⟩
  · split at hpick
    · rename_i hfloor
      cases hpick
      exact ⟨.inl rfl, hfloor⟩
    · split at hpick
      · rename_i hnext
        cases hpick
        exact ⟨.inr rfl, hnext⟩
      · cases hpick

theorem ratio_le_high (h : i.Sound) : i.ratio ≤ i.high / i.denominator := by
  have hle : (i.value : ℚ) ≤ i.high := by exact_mod_cast h.value_le
  rw [ratio]
  gcongr

theorem search_decimal (h : i.Sound) (tries : Nat) : ∀ count, tries + count = 18 →
    i.Decimal (i.search i.magnitude tries count) := by
  induction tries with
  | zero =>
      intro count hcount
      obtain ⟨hpos, hlt⟩ := floorAt_bounds h 17
      rw [search]
      exact ⟨hpos.ne', hlt.le, Int.le_refl _,
        le_trans ((le_floorAt_iff h).mp (Nat.le_refl _)) (ratio_le_high h)⟩
  | succ tries ih =>
      intro count hcount
      obtain ⟨hpos, hlt⟩ := floorAt_bounds h count
      have hpow : 10 ^ (count + 1) ≤ 10 ^ 18 := Nat.pow_le_pow_right (by decide) (by omega)
      rw [search]
      split
      · rename_i found hpick
        obtain ⟨hfound, hholds⟩ := pick?_spec hpick
        have hhigh := le_high_of_holds h hholds
        rcases hfound with rfl | rfl
        · exact ⟨hpos.ne', by omega, by omega, hhigh⟩
        · exact ⟨Nat.succ_ne_zero _, by omega, by omega, hhigh⟩
      · exact ih (count + 1) (by omega)

theorem Decimal.stripZeros (fuel : Nat) : ∀ {d : Nat × Int}, i.Decimal d →
    i.Decimal (Number.stripZeros fuel d) := by
  induction fuel with
  | zero => exact fun h => h
  | succ fuel ih =>
      intro d h
      obtain ⟨digits, e⟩ := d
      rw [Number.stripZeros]
      split
      · rename_i hzero
        obtain ⟨q, rfl⟩ : ∃ q, digits = q * 10 := ⟨digits / 10, by omega⟩
        rw [Nat.mul_div_cancel _ (by decide)]
        have hle := h.le
        have hge := h.exponent_ge
        dsimp only at hle hge
        refine ih ⟨by rintro rfl; exact hzero.1 rfl, by dsimp only; omega, by dsimp only; omega, ?_⟩
        refine le_of_eq_of_le ?_ h.le_high
        push_cast
        rw [zpow_add_one₀ (by norm_num)]
        ring
      · exact h

end Interval

namespace Binary

variable {x : Binary}

theorem fraction_lt (x : Binary) : x.fraction < 2 ^ 52 := by
  rw [fraction, UInt64.toNat_and]
  exact Nat.and_lt_two_pow _ (by decide)

theorem exponentField_le (x : Binary) : x.exponentField ≤ 2046 := by
  have hfinite := x.finite
  have hlt : x.exponentField < 2 ^ 11 := by
    rw [exponentField, UInt64.toNat_and]
    exact Nat.and_lt_two_pow _ (by decide)
  have hne : x.exponentField ≠ 2047 := by
    intro h
    rw [isFinite, bne_iff_ne] at hfinite
    exact hfinite (UInt64.toNat_inj.mp h)
  omega

theorem fields_of_isZero (hfraction : x.fraction = 0) (hfield : x.exponentField = 0) :
    x.isZero = true := by
  rw [fraction, UInt64.toNat_and] at hfraction
  rw [exponentField, UInt64.toNat_and, UInt64.toNat_shiftRight] at hfield
  change x.bits.toNat &&& 2 ^ 52 - 1 = 0 at hfraction
  change x.bits.toNat >>> 52 &&& 2 ^ 11 - 1 = 0 at hfield
  rw [Nat.and_two_pow_sub_one_eq_mod] at hfraction hfield
  rw [Nat.shiftRight_eq_div_pow] at hfield
  rw [isZero, beq_iff_eq, ← UInt64.toNat_inj, UInt64.toNat_shiftLeft]
  change x.bits.toNat <<< 1 % 2 ^ 64 = 0
  rw [Nat.shiftLeft_eq]
  omega

theorem decode_pos (h : x.isZero = false) : 0 < x.decode.1 := by
  rw [decode]
  split
  · rename_i hfield
    by_contra hzero
    have hfraction : x.fraction = 0 := by simpa using hzero
    rw [fields_of_isZero hfraction hfield] at h
    cases h
  · exact Nat.add_pos_right _ (by decide)

theorem interval_sound (h : x.isZero = false) : x.interval.Sound where
  denominator_pos := by
    rw [interval]
    exact Nat.mul_pos (by decide) (Nat.pow_pos (by decide))
  value_pos := by
    rw [interval]
    exact Nat.mul_pos (Nat.mul_pos (by decide) (decode_pos h)) (Nat.pow_pos (by decide))
  value_le := by
    rw [interval]
    exact Nat.mul_le_mul_right _ (Nat.le_add_right ..)

theorem shortest_decimal (h : x.isZero = false) : x.interval.Decimal x.shortest :=
  (Interval.search_decimal (interval_sound h) 18 0 rfl).stripZeros 400

/-- The greatest float. -/
def greatest : Binary := ⟨0x7FEFFFFFFFFFFFFF, by decide⟩

theorem interval_greatest (hfraction : x.fraction = 2 ^ 52 - 1) (hfield : x.exponentField = 2046) :
    x.interval = greatest.interval := by
  have hfraction' : greatest.fraction = 2 ^ 52 - 1 := by decide
  have hfield' : greatest.exponentField = 2046 := by decide
  simp only [interval, decode, hfraction, hfield, hfraction', hfield']

theorem shortest_greatest : greatest.shortest = (17976931348623157, 292) := by
  decide +kernel

/-- The interval of every other float ends below that of the greatest one. -/
theorem high_le (h : x.fraction ≠ 2 ^ 52 - 1 ∨ x.exponentField ≠ 2046) :
    x.interval.high ≤ 4 * lastReal := by
  have hfraction := x.fraction_lt
  have hfield := x.exponentField_le
  have hmul {m k a b : Nat} (hm : m ≤ a) (hk : k ≤ b) : m * 2 ^ k ≤ a * 2 ^ b :=
    Nat.mul_le_mul hm (Nat.pow_le_pow_right (by decide) hk)
  change (4 * x.decode.1 + 2) * 2 ^ x.decode.2.toNat ≤ _
  by_cases hlast : x.exponentField = 2046
  · -- one below the greatest mantissa
    have hm : 4 * x.decode.1 + 2 ≤ 4 * (2 ^ 53 - 2) + 2 := by
      rw [decode, if_neg (by omega)]
      dsimp only
      omega
    have hk : x.decode.2.toNat ≤ 971 := by
      rw [decode, if_neg (by omega)]
      dsimp only
      omega
    exact Nat.le_trans (hmul hm hk) (by decide +kernel)
  · have hm : 4 * x.decode.1 + 2 ≤ 4 * (2 ^ 53 - 1) + 2 := by
      rw [decode]
      split <;> dsimp only <;> omega
    have hk : x.decode.2.toNat ≤ 970 := by
      rw [decode]
      split <;> dsimp only <;> omega
    exact Nat.le_trans (hmul hm hk) (by decide +kernel)

/-- The shortest digits make a decimal that can be read. -/
theorem shortest_writable (h : x.isZero = false) :
    x.shortest.1 ≠ 0 ∧ x.shortest.1 ≤ 10 ^ 18 ∧ Writable x.shortest.1 x.shortest.2.toNat := by
  obtain ⟨hne, hle, -, hhigh⟩ := shortest_decimal h
  refine ⟨hne, hle, ?_⟩
  by_cases hgreatest : x.fraction = 2 ^ 52 - 1 ∧ x.exponentField = 2046
  · have : x.shortest = (17976931348623157, 292) := by
      rw [shortest, interval_greatest hgreatest.1 hgreatest.2, ← shortest, shortest_greatest]
    rw [this]
    exact .inr ⟨rfl, rfl⟩
  · left
    rw [mul_zpow_le_iff (interval_sound h).denominator_pos] at hhigh
    by_cases hneg : x.shortest.2 ≤ 0
    · rw [Int.toNat_of_nonpos hneg, pow_zero, Nat.mul_one]
      refine Nat.le_trans hle ?_
      decide +kernel
    · rw [Int.toNat_of_nonpos (by omega : -x.shortest.2 ≤ 0), pow_zero, Nat.mul_one] at hhigh
      have hfour : 4 ≤ x.interval.denominator := by
        rw [interval]
        exact Nat.le_mul_of_pos_right _ (Nat.pow_pos (by decide))
      have := high_le (x := x) (by tauto)
      have := Nat.mul_le_mul_left (x.shortest.1 * 10 ^ x.shortest.2.toNat) hfour
      omega

/-- No float is so small that its exponent of ten has four digits. -/
theorem shortest_exponent_ge (h : x.isZero = false) : -420 ≤ x.shortest.2 := by
  have hge := (shortest_decimal h).exponent_ge
  have hsound := interval_sound h
  have hexponent : (-x.decode.2).toNat ≤ 1074 := by
    rw [decode]
    split <;> dsimp only <;> omega
  have hdenominator (k : Nat) (hk : (-x.decode.2).toNat ≤ k) :
      x.interval.denominator ≤ 4 * 2 ^ k :=
    Nat.mul_le_mul_left 4 (Nat.pow_le_pow_right (by decide) hk)
  have hgreat : 4 * 2 ^ 1074 ≤ 10 ^ (-(-400) : Int).toNat := by decide +kernel
  have hratio : ((1 : Nat) : ℚ) * 10 ^ (-400 : Int) ≤ x.interval.ratio :=
    (mul_zpow_le_iff hsound.denominator_pos _).mpr <| calc
      1 * 10 ^ (-400 : Int).toNat * x.interval.denominator
          = x.interval.denominator := by simp
      _ ≤ 10 ^ (-(-400) : Int).toNat := Nat.le_trans (hdenominator 1074 hexponent) hgreat
      _ ≤ x.interval.value * 10 ^ (-(-400) : Int).toNat :=
        Nat.le_mul_of_pos_left _ hsound.value_pos
  rw [Nat.cast_one, one_mul] at hratio
  have hlt := (zpow_lt_zpow_iff_right₀ (by norm_num : (1 : ℚ) < 10)).mp
    (lt_of_le_of_lt hratio (Interval.magnitude_spec hsound).2)
  omega

end Binary

end ComponentAtlas.Number
