import ComponentAtlas.Json.Reader
import ComponentAtlas.Proofs.Number.Arithmetic

/-!
# Decimals as floats

A number is read as its digits times a power of ten, both as floats. The product is finite for
every decimal that is not above the greatest one that a float is written as.
-/

namespace ComponentAtlas.Number

open Float.Model Float.Model.UnpackedFloat ComponentAtlas.Json

section Decimals

variable {n e : Nat}

theorem log2_scaled {N : Nat} (hN : N ≠ 0) : (N * 2 ^ 53).log2 = N.log2 + 53 := by
  rw [← Nat.shiftLeft_eq, log2_shiftLeft hN]

theorem ofScientific_eq (hn : n ≠ 0) (he : e ≤ 308) :
    UnpackedFloat.ofScientific Format.binary64 n e =
      roundWithAccuracy Format.binary64 .positive (n * 10 ^ e * 2 ^ 53) (-53) .exact := by
  rw [UnpackedFloat.ofScientific, dif_neg hn]
  rw [if_neg (by change ¬ ((e : Int) > 2048); omega),
    if_neg (by change ¬ ((e : Int) < -(2048 + n.log2)); omega), if_pos (Int.natCast_nonneg e)]
  simp only [UnpackedFloat.mul, Nat.shiftLeft_eq, Int.toNat_natCast]
  change roundWithAccuracy Format.binary64 .positive (n * 2 ^ 53 * 10 ^ e) (-53) .exact = _
  rw [Nat.mul_right_comm]

/-- A natural number as a float. -/
def rounded (N : Nat) : UnpackedFloat :=
  roundWithAccuracy Format.binary64 .positive (N * 2 ^ 53) (-53) .exact

variable {N : Nat}

theorem fits_rounded (hN : N ≠ 0) (hle : N ≤ 10 ^ 308) : Fits (rounded N) := by
  have hlog := log2_scaled hN
  refine round_fits .positive (.inl (by omega)) (by decide) ?_
  calc N * 2 ^ 53 * 2 ^ (-53 + 2148 : Int).toNat
      ≤ 10 ^ 308 * 2 ^ 53 * 2 ^ (-53 + 2148 : Int).toNat :=
        Nat.mul_le_mul_right _ (Nat.mul_le_mul_right _ hle)
    _ < lastTie := by decide +kernel

theorem below_rounded (hN : N ≠ 0) {top : Int} (htop : N.log2 < top) (hle : top ≤ 1022) :
    Below (top + 1) (rounded N) := by
  have hlog := log2_scaled hN
  exact (round_below .positive (.inl (by omega)) (by omega) (by omega) hle).2

theorem rounded_above (hN : N ≠ 0) :
    ∃ m f hm, rounded N = .finite .positive m f hm ∧ N.log2 ≤ m.log2 + f := by
  have hlog := log2_scaled hN
  obtain ⟨m, f, hm, heq, hle⟩ :=
    @round_above (N * 2 ^ 53) (-53) .exact .positive (by positivity) (by omega)
  exact ⟨m, f, hm, heq, by omega⟩

/-- One in units of the least positive float. -/
def unit : Nat := 2 ^ 53 * 2 ^ (-53 + 1074 : Int).toNat

theorem mul_unit (N : Nat) : N * 2 ^ 53 * 2 ^ (-53 + 1074 : Int).toNat = N * unit :=
  Nat.mul_assoc ..

theorem magnitude_rounded_le (hN : N ≠ 0) :
    2 ^ 53 * magnitude (rounded N) ≤ (2 ^ 53 + 1) * (N * unit) := by
  have hlog := log2_scaled hN
  rw [← mul_unit]
  exact magnitude_round_le .positive (by positivity) (by decide) (by omega)

end Decimals

section Floats

variable {n e : Nat}

theorem unpack_ofScientific (hn : n ≠ 0) (he : e ≤ 308) (hle : n * 10 ^ e ≤ 10 ^ 308) :
    (Float.Model.ofScientific n e).unpack = rounded (n * 10 ^ e) := by
  rw [Float.Model.ofScientific, ofScientific_eq hn he]
  exact unpack_pack (fits_rounded (by positivity) hle)

theorem powerOfTen_small : ∀ e ≤ 22, powerOfTen e = .ofModel (Float.Model.ofScientific 1 e) := by
  decide +kernel

theorem powerOfTen_eq (e : Nat) : powerOfTen e = .ofModel (Float.Model.ofScientific 1 e) := by
  by_cases he : e ≤ 22
  · exact powerOfTen_small e he
  · rw [powerOfTen, Float.ofScientific, dif_neg (fun h => he h.2)]
    rfl

/-- A power of ten is what rounding makes of it. -/
theorem unpack_powerOfTen (he : e ≤ 308) : (powerOfTen e).toModel.unpack = rounded (10 ^ e) := by
  have hle (k : Nat) (hk : e ≤ k) : 1 * 10 ^ e ≤ 10 ^ k :=
    (Nat.one_mul _).trans_le (Nat.pow_le_pow_right (by decide) hk)
  rw [powerOfTen_eq, unpack_ofScientific one_ne_zero he (hle 308 he), Nat.one_mul]

/-- A number below the greatest mantissa is a float as it stands. -/
theorem fits_small (hn : n ≠ 0) (hlt : n < 2 ^ 53) :
    Fits (.finite .positive (n * 2 ^ (52 - n.log2)) (n.log2 - 52) (by positivity)) := by
  have hlog : n.log2 < 53 := (Nat.log2_lt hn).mpr hlt
  have hpow (k : Nat) (hk : k = 52) : 2 ^ k = 2 ^ n.log2 * 2 ^ (52 - n.log2) := by
    rw [← Nat.pow_add]
    congr 1
    omega
  refine .normal .positive _ ?_ ?_ (by omega) (by omega)
  · rw [hpow 52 rfl]
    exact Nat.mul_le_mul_right _ (Nat.log2_self_le hn)
  · rw [Nat.pow_succ', hpow 52 rfl, ← Nat.mul_assoc, ← Nat.pow_succ']
    exact Nat.mul_lt_mul_of_pos_right Nat.lt_log2_self (Nat.two_pow_pos _)

theorem unpack_toFloat (hn : n ≠ 0) (hlt : n < 2 ^ 53) :
    n.toUInt64.toFloat.toModel.unpack =
      .finite .positive (n * 2 ^ (52 - n.log2)) (n.log2 - 52) (by positivity) := by
  have hlog : n.log2 < 53 := (Nat.log2_lt hn).mpr hlt
  have hn64 : n.toUInt64.toNat = n := by
    rw [Nat.toUInt64, UInt64.toNat_ofNat']
    omega
  have hpos : compare (n : Int) 0 = .gt := Int.compare_eq_gt.mpr (by omega)
  have hround := round_of_fits (fits_small hn hlt) .positive 0
  rw [pow_zero, Nat.mul_one, Int.natCast_zero, Int.sub_zero] at hround
  change (Float.Model.pack (UnpackedFloat.ofNat Format.binary64 n.toUInt64.toNat)).unpack = _
  rw [hn64, UnpackedFloat.ofNat, UnpackedFloat.ofInt, UnpackedFloat.normalize, hpos]
  simp only [UnpackedFloat.round, decreaseExponent, targetExponent_eq, totalExponent,
    Int.toNat_natCast, Nat.shiftLeft_eq]
  rw [show (0 - max ((n.log2 : Int) + 1 + 0 - 53) (-1074)).toNat = 52 - n.log2 by omega,
    show (0 : Int) - (52 - n.log2 : Nat) = n.log2 - 52 by omega, hround]
  exact unpack_pack (fits_small hn hlt)

/-- What a number of at most eighteen digits is as a float. -/
structure Near (N : Nat) (u : UnpackedFloat) : Prop where
  fits : Fits u
  below : Below 64 u
  magnitude_le : 2 ^ 53 * magnitude u ≤ (2 ^ 53 + 1) * (N * unit)
  exact : N < 2 ^ 53 → magnitude u ≤ N * unit

theorem near_small (hn : n ≠ 0) (hlt : n < 2 ^ 53) : Near n (Float.ofNat n).toModel.unpack := by
  have hlog : n.log2 < 53 := (Nat.log2_lt hn).mpr hlt
  have hfits := fits_small hn hlt
  have hone : (Float.ofBits 0x3FF0000000000000).toModel.unpack =
      .finite .positive (2 ^ 52) (-52) (by decide) := rfl
  have hunpack : (Float.ofNat n).toModel.unpack =
      .finite .positive (n * 2 ^ (52 - n.log2)) (n.log2 - 52) (by positivity) := by
    change (Float.ofScientific n false 0).toModel.unpack = _
    rw [Float.ofScientific, dif_pos ⟨hlt, Nat.zero_le 22⟩]
    change (Float.Model.pack (UnpackedFloat.mul Format.binary64 n.toUInt64.toFloat.toModel.unpack
      (Float.ofBits 0x3FF0000000000000).toModel.unpack)).unpack = _
    rw [unpack_toFloat hn hlt, hone, UnpackedFloat.mul]
    change (Float.Model.pack (roundWithAccuracy Format.binary64 .positive
      (n * 2 ^ (52 - n.log2) * 2 ^ 52) ((n.log2 - 52 : Int) - (52 : Nat)) .exact)).unpack = _
    rw [round_of_fits hfits]
    exact unpack_pack hfits
  have hmagnitude : magnitude (.finite .positive (n * 2 ^ (52 - n.log2)) (n.log2 - 52)
      (by positivity)) = n * unit := by
    rw [magnitude, unit, Nat.mul_assoc, ← Nat.pow_add, ← Nat.pow_add]
    congr 2
    omega
  rw [hunpack]
  exact {
    fits := hfits
    below := by
      change ((n * 2 ^ (52 - n.log2)).log2 : Int) + (n.log2 - 52) < 64
      rw [← Nat.shiftLeft_eq, log2_shiftLeft hn]
      omega
    magnitude_le := by
      rw [hmagnitude]
      exact Nat.mul_le_mul_right _ (Nat.le_succ _)
    exact := fun _ => hmagnitude.le }

theorem near_ofNat (hn : n ≠ 0) (hle : n ≤ 10 ^ 18) : Near n (Float.ofNat n).toModel.unpack := by
  by_cases hlt : n < 2 ^ 53
  · exact near_small hn hlt
  · have hlog : n.log2 < 60 := (Nat.log2_lt hn).mpr (by omega)
    have hgreatest (k : Nat) (hk : 18 ≤ k) : n ≤ 10 ^ k :=
      Nat.le_trans hle (Nat.pow_le_pow_right (by decide) hk)
    have hunpack : (Float.ofNat n).toModel.unpack = rounded n := by
      change (Float.ofScientific n false 0).toModel.unpack = _
      rw [Float.ofScientific, dif_neg (fun h => hlt h.1)]
      have hmodel := unpack_ofScientific hn (Nat.zero_le 308)
        (by rw [pow_zero, Nat.mul_one]; exact hgreatest 308 (by decide))
      rw [pow_zero, Nat.mul_one] at hmodel
      exact hmodel
    rw [hunpack]
    exact {
      fits := fits_rounded hn (hgreatest 308 (by decide))
      below := below_rounded hn (show (n.log2 : Int) < 63 by omega) (by decide)
      magnitude_le := magnitude_rounded_le hn
      exact := fun h => (hlt h).elim }

end Floats

section Products

variable {n e : Nat}

/-- The greatest real that is nearer to another float than to the greatest one. -/
def lastReal : Nat := 2 ^ 1024 - 3 * 2 ^ 970

/-- The decimals that the text of a float can stand for. The greatest float is written with a
decimal above all others. -/
def Writable (n e : Nat) : Prop :=
  n * 10 ^ e ≤ lastReal ∨ n = 17976931348623157 ∧ e = 292

theorem magnitude_powerOfTen (he : e ≤ 308) :
    2 ^ 53 * magnitude (powerOfTen e).toModel.unpack ≤ (2 ^ 53 + 1) * (10 ^ e * unit) := by
  rw [unpack_powerOfTen he]
  exact magnitude_rounded_le (by positivity)

theorem Writable.exponent_le (h : Writable n e) (hn : n ≠ 0) : e ≤ 308 := by
  obtain h | ⟨-, rfl⟩ := h
  · by_contra hgt
    have hle (k : Nat) (hk : k ≤ e) : 10 ^ k ≤ n * 10 ^ e := calc
      10 ^ k ≤ 10 ^ e := Nat.pow_le_pow_right (by decide) hk
      _ ≤ n * 10 ^ e := Nat.le_mul_of_pos_left _ (Nat.pos_of_ne_zero hn)
    have hlt : lastReal < 10 ^ 309 := by decide +kernel
    exact absurd (Nat.le_trans (hle 309 (by omega)) h) (Nat.not_le.mpr hlt)
  · decide

/-- Products with two roundings are safe up to here. -/
theorem product_lt_of_le (hn : n ≠ 0) (hle : n ≤ 10 ^ 18) (he : e ≤ 308)
    (hsafe : n * 10 ^ e ≤ 17976931348623154 * 10 ^ 292) :
    magnitude (Float.ofNat n).toModel.unpack * magnitude (powerOfTen e).toModel.unpack <
      lastTie := by
  have hx := (near_ofNat hn hle).magnitude_le
  have hp := magnitude_powerOfTen he
  refine Nat.lt_of_mul_lt_mul_left (a := 2 ^ 53 * 2 ^ 53) ?_
  calc 2 ^ 53 * 2 ^ 53 * (magnitude (Float.ofNat n).toModel.unpack *
        magnitude (powerOfTen e).toModel.unpack)
      = 2 ^ 53 * magnitude (Float.ofNat n).toModel.unpack *
          (2 ^ 53 * magnitude (powerOfTen e).toModel.unpack) := by ring
    _ ≤ (2 ^ 53 + 1) * (n * unit) * ((2 ^ 53 + 1) * (10 ^ e * unit)) := Nat.mul_le_mul hx hp
    _ = (2 ^ 53 + 1) * (2 ^ 53 + 1) * (unit * unit) * (n * 10 ^ e) := by ring
    _ ≤ (2 ^ 53 + 1) * (2 ^ 53 + 1) * (unit * unit) * (17976931348623154 * 10 ^ 292) :=
        Nat.mul_le_mul_left _ hsafe
    _ < 2 ^ 53 * 2 ^ 53 * lastTie := by decide +kernel

/-- Products with one rounding are safe up to the last real. -/
theorem product_lt_of_exact (hn : n ≠ 0) (hlt : n < 2 ^ 53) (he : e ≤ 308)
    (hle : n * 10 ^ e ≤ lastReal) :
    magnitude (Float.ofNat n).toModel.unpack * magnitude (powerOfTen e).toModel.unpack <
      lastTie := by
  have hx := (near_ofNat hn (by omega)).exact hlt
  have hp := magnitude_powerOfTen he
  refine Nat.lt_of_mul_lt_mul_left (a := 2 ^ 53) ?_
  calc 2 ^ 53 * (magnitude (Float.ofNat n).toModel.unpack *
        magnitude (powerOfTen e).toModel.unpack)
      = magnitude (Float.ofNat n).toModel.unpack *
          (2 ^ 53 * magnitude (powerOfTen e).toModel.unpack) := by ring
    _ ≤ n * unit * ((2 ^ 53 + 1) * (10 ^ e * unit)) := Nat.mul_le_mul hx hp
    _ = (2 ^ 53 + 1) * (unit * unit) * (n * 10 ^ e) := by ring
    _ ≤ (2 ^ 53 + 1) * (unit * unit) * lastReal := Nat.mul_le_mul_left _ hle
    _ < 2 ^ 53 * lastTie := by decide +kernel

theorem product_lt_291 (hn : n ≠ 0) (hle : n ≤ 10 ^ 18) (hreal : n * 10 ^ 291 ≤ lastReal) :
    magnitude (Float.ofNat n).toModel.unpack * magnitude (powerOfTen 291).toModel.unpack <
      lastTie := by
  have hdiv : n ≤ lastReal / 10 ^ 291 := (Nat.le_div_iff_mul_le (by positivity)).mpr hreal
  have hx := (near_ofNat hn hle).magnitude_le
  refine Nat.lt_of_mul_lt_mul_left (a := 2 ^ 53) ?_
  calc 2 ^ 53 * (magnitude (Float.ofNat n).toModel.unpack *
        magnitude (powerOfTen 291).toModel.unpack)
      = 2 ^ 53 * magnitude (Float.ofNat n).toModel.unpack *
          magnitude (powerOfTen 291).toModel.unpack := (Nat.mul_assoc ..).symm
    _ ≤ (2 ^ 53 + 1) * (n * unit) * magnitude (powerOfTen 291).toModel.unpack :=
        Nat.mul_le_mul_right _ hx
    _ ≤ (2 ^ 53 + 1) * (lastReal / 10 ^ 291 * unit) *
          magnitude (powerOfTen 291).toModel.unpack :=
        Nat.mul_le_mul_right _ (Nat.mul_le_mul_left _ (Nat.mul_le_mul_right _ hdiv))
    _ < 2 ^ 53 * lastTie := by decide +kernel

theorem product_lt_292 : ∀ n ∈ [17976931348623155, 17976931348623156, 17976931348623157],
    magnitude (Float.ofNat n).toModel.unpack * magnitude (powerOfTen 292).toModel.unpack <
      lastTie := by
  decide +kernel

/-- The product of a writable decimal is finite. Where two roundings are not safe, the power of ten
is one of two, and its own rounding is known. -/
theorem product_lt (hn : n ≠ 0) (hle : n ≤ 10 ^ 18) (h : Writable n e) :
    magnitude (Float.ofNat n).toModel.unpack * magnitude (powerOfTen e).toModel.unpack <
      lastTie := by
  have he := h.exponent_le hn
  by_cases hsafe : n * 10 ^ e ≤ 17976931348623154 * 10 ^ 292
  · exact product_lt_of_le hn hle he hsafe
  obtain hreal | ⟨rfl, rfl⟩ := h
  · by_cases hlt : n < 2 ^ 53
    · exact product_lt_of_exact hn hlt he hreal
    have hlow : 290 < e := by
      by_contra hle'
      have hpow (k : Nat) (hk : e ≤ k) : n * 10 ^ e ≤ 10 ^ 18 * 10 ^ k :=
        Nat.mul_le_mul hle (Nat.pow_le_pow_right (by decide) hk)
      have hsmall : 10 ^ 18 * 10 ^ 290 ≤ 17976931348623154 * 10 ^ 292 := by decide +kernel
      exact hsafe (Nat.le_trans (hpow 290 (by omega)) hsmall)
    have hhigh : e ≤ 292 := by
      by_contra hgt
      have hpow (k : Nat) (hk : k ≤ e) : 2 ^ 53 * 10 ^ k ≤ n * 10 ^ e :=
        Nat.mul_le_mul (Nat.le_of_not_lt hlt) (Nat.pow_le_pow_right (by decide) hk)
      have hgreat : lastReal < 2 ^ 53 * 10 ^ 293 := by decide +kernel
      exact absurd (Nat.le_trans (hpow 293 (by omega)) hreal) (Nat.not_le.mpr hgreat)
    obtain rfl | rfl : e = 291 ∨ e = 292 := by omega
    · exact product_lt_291 hn hle hreal
    · have hpos : 0 < 10 ^ 292 := by positivity
      have hdiv : n ≤ lastReal / 10 ^ 292 := (Nat.le_div_iff_mul_le hpos).mpr hreal
      have hquotient : lastReal / 10 ^ 292 = 17976931348623156 := by decide +kernel
      have hgt : 17976931348623154 < n := Nat.lt_of_mul_lt_mul_right (Nat.lt_of_not_le hsafe)
      refine product_lt_292 n ?_
      simp only [List.mem_cons, List.not_mem_nil, or_false]
      omega
  · exact product_lt_292 _ (by decide)

end Products

section Scaling

variable {x : Float} {n e : Nat} {exponent : Int}

theorem Fits.isInf {u : UnpackedFloat} (h : Fits u) : u.isInf = false := by
  cases h <;> rfl

theorem Fits.neg {u : UnpackedFloat} (h : Fits u) : Fits u.neg := by
  cases h with
  | zero s => exact .zero _
  | subnormal s hm hhi => exact .subnormal _ hm hhi
  | normal s hm hlo hhi he he' => exact .normal _ hm hlo hhi he he'

theorem fits_neg (h : Fits x.toModel.unpack) : Fits (-x).toModel.unpack := by
  change Fits (Float.Model.pack x.toModel.unpack.neg).unpack
  rw [unpack_pack h.neg]
  exact h.neg

theorem unpack_mul {x y : Float}
    (h : Fits (UnpackedFloat.mul Format.binary64 x.toModel.unpack y.toModel.unpack)) :
    (x * y).toModel.unpack =
      UnpackedFloat.mul Format.binary64 x.toModel.unpack y.toModel.unpack :=
  unpack_pack h

theorem unpack_div {x y : Float}
    (h : Fits (UnpackedFloat.div Format.binary64 x.toModel.unpack y.toModel.unpack)) :
    (x / y).toModel.unpack =
      UnpackedFloat.div Format.binary64 x.toModel.unpack y.toModel.unpack :=
  unpack_pack h

/-- Dividing by a power of ten makes no number great. -/
theorem div_powerOfTen (hx : Fits x.toModel.unpack) (hbelow : Below 64 x.toModel.unpack)
    (hpos : 0 < e) (he : e ≤ 308) : Fits (x / powerOfTen e).toModel.unpack ∧
      Below 64 (x / powerOfTen e).toModel.unpack := by
  obtain ⟨m, f, hm, hten, hlog⟩ := rounded_above (N := 10 ^ e) (by positivity)
  rw [← unpack_powerOfTen he] at hten
  have hlow : 1 ≤ (10 ^ e).log2 := by
    rw [Nat.le_log2 (by positivity), pow_one]
    exact Nat.le_trans (by decide) (Nat.pow_le_pow_right (n := 10) (by decide) hpos)
  have hdiv := fits_div hx hbelow hm (t := .positive) (f := f) (by omega) (by decide) (by decide)
  rw [← hten] at hdiv
  rw [unpack_div hdiv.1]
  exact hdiv

theorem scaleFloat_neg (fuel : Nat) : ∀ {x : Float} {exponent : Int}, Fits x.toModel.unpack →
    Below 64 x.toModel.unpack → exponent < 0 →
    ∃ y, scaleFloat fuel x exponent = some y ∧ Fits y.toModel.unpack := by
  induction fuel with
  | zero => exact fun hx _ _ => ⟨_, rfl, hx⟩
  | succ fuel ih =>
      intro x exponent hx hbelow hneg
      by_cases hnear : exponent.natAbs ≤ 308
      · have hdiv := div_powerOfTen (e := (-exponent).toNat) hx hbelow (by omega) (by omega)
        exact ⟨_, by rw [scaleFloat, if_pos hnear, if_neg (by omega)], hdiv.1⟩
      · have hdiv := div_powerOfTen (e := 308) hx hbelow (by decide) (by decide)
        rw [scaleFloat, if_neg hnear]
        split
        · exact ⟨x, rfl, hx⟩
        · rw [if_neg (by omega)]
          exact ih hdiv.1 hdiv.2 (by omega)

theorem scaleFloat_nonneg (fuel : Nat) (hn : n ≠ 0) (hle : n ≤ 10 ^ 18) (h : Writable n e) :
    ∃ y, scaleFloat (fuel + 1) (Float.ofNat n) e = some y ∧ Fits y.toModel.unpack := by
  have he := h.exponent_le hn
  have hpow (k : Nat) (hk : e ≤ k) : 10 ^ e ≤ 10 ^ k := Nat.pow_le_pow_right (by decide) hk
  have hpower : Fits (powerOfTen e).toModel.unpack := by
    rw [unpack_powerOfTen he]
    exact fits_rounded (by positivity) (hpow 308 he)
  have hfits := fits_mul (near_ofNat hn hle).fits hpower (product_lt hn hle h)
  rw [← unpack_mul hfits] at hfits
  have hinf : (Float.ofNat n * powerOfTen e).isInf = false := hfits.isInf
  refine ⟨_, ?_, hfits⟩
  rw [scaleFloat, if_pos (by omega), if_pos (by omega)]
  simp only [Int.toNat_natCast, hinf]
  rfl

theorem ofFloat?_of_fits (h : Fits x.toModel.unpack) : ∃ b, Binary.ofFloat? x = some b :=
  ⟨_, dif_pos (isFinite_toBits h)⟩

theorem makeBinary_of_scaleFloat {y : Float} (negative : Bool) (c : Cursor)
    (hscale : scaleFloat (exponent.natAbs + 2) (Float.ofNat n) exponent = some y)
    (hfits : Fits y.toModel.unpack) :
    ∃ b, makeBinary negative n exponent c = .ok (.binary b, c) := by
  have hsigned : Fits (if negative then -y else y).toModel.unpack := by
    cases negative with
    | false => exact hfits
    | true => exact fits_neg hfits
  obtain ⟨b, hb⟩ := ofFloat?_of_fits hsigned
  refine ⟨b, ?_⟩
  rw [makeBinary]
  simp only [hscale, hb]

/-- No fraction is too great to be read. -/
theorem makeBinary_neg (negative : Bool) (c : Cursor) (hle : n ≤ 10 ^ 18) (hneg : exponent < 0) :
    ∃ b, makeBinary negative n exponent c = .ok (.binary b, c) := by
  have hx : Fits (Float.ofNat n).toModel.unpack ∧ Below 64 (Float.ofNat n).toModel.unpack := by
    by_cases hn : n = 0
    · subst hn
      exact ⟨.zero .positive, trivial⟩
    · exact ⟨(near_ofNat hn hle).fits, (near_ofNat hn hle).below⟩
  obtain ⟨y, hy, hfits⟩ := scaleFloat_neg (exponent.natAbs + 2) hx.1 hx.2 hneg
  exact makeBinary_of_scaleFloat negative c hy hfits

/-- Making a number of a decimal that a text of a float can stand for does not fail. -/
theorem makeBinary_ok (negative : Bool) (c : Cursor) (hn : n ≠ 0) (hle : n ≤ 10 ^ 18)
    (h : Writable n exponent.toNat) :
    ∃ b, makeBinary negative n exponent c = .ok (.binary b, c) := by
  by_cases hneg : exponent < 0
  · exact makeBinary_neg negative c hle hneg
  · obtain ⟨e, rfl⟩ := Int.eq_ofNat_of_zero_le (Int.not_lt.mp hneg)
    obtain ⟨y, hy, hfits⟩ := scaleFloat_nonneg _ hn hle h
    exact makeBinary_of_scaleFloat negative c hy hfits

end Scaling

end ComponentAtlas.Number
