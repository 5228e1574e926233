import ComponentAtlas.Number.Binary
import Mathlib

/-!
# Rounding to floats

A result of float arithmetic is a whole multiple of a power of two that is nearest to the exact
result. The exponent of a float bounds what it stands for, so a float whose exponent is small
enough is finite.
-/

namespace ComponentAtlas.Number

open Float.Model Float.Model.UnpackedFloat

section Shifts

variable {m s : Nat}

theorem shift_succ (em : ExtendedMantissa) (s : Nat) :
    em >>> (s + 1) = (em >>> s).shiftRightOne := rfl

theorem mantissa_shift (em : ExtendedMantissa) (s : Nat) :
    (em >>> s).mantissa = em.mantissa / 2 ^ s := by
  induction s with
  | zero => exact (Nat.div_one _).symm
  | succ s ih =>
      rw [shift_succ, Nat.pow_succ, ← Nat.div_div_eq_div_mul, ← ih]
      rfl

theorem mantissa_ofAccuracy (m : Nat) (acc : Accuracy) :
    (ExtendedMantissa.ofMantissaAndAccuracy m acc).mantissa = m := by
  cases acc with
  | exact => rfl
  | inexact o => cases o <;> rfl

/-- The bit behind an exact mantissa that was cut off is half of the last bit that is left. -/
theorem le_of_roundBit (h : (ExtendedMantissa.ofMantissaAndAccuracy m .exact >>> s).roundBit) :
    2 ^ s ≤ 2 * (m % 2 ^ s) := by
  cases s with
  | zero => cases h
  | succ s =>
      have hbit : m / 2 ^ s % 2 = 1 := by
        have : ((ExtendedMantissa.ofMantissaAndAccuracy m .exact >>> s).mantissa % 2 != 0) = true :=
          h
        rw [mantissa_shift, mantissa_ofAccuracy, bne_iff_ne] at this
        omega
      have hmod : m % 2 ^ (s + 1) = m % 2 ^ s + 2 ^ s * (m / 2 ^ s % 2) := by
        rw [Nat.pow_succ, Nat.mod_mul]
      rw [hmod, hbit, Nat.pow_succ]
      omega

theorem roundedMantissa_bounds (em : ExtendedMantissa) : em.mantissa ≤ em.roundedMantissa ∧
    em.roundedMantissa ≤ em.mantissa + 1 ∧
    (em.roundBit = false → em.roundedMantissa = em.mantissa) := by
  obtain ⟨m, roundBit, stickyBit⟩ := em
  cases roundBit <;> cases stickyBit <;>
    simp [ExtendedMantissa.roundedMantissa, ExtendedMantissa.accuracy,
      Accuracy.roundToNearestEven]
  omega

end Shifts

section Rounding

variable {sign : Sign} {m : Nat} {e : Int} {acc : Accuracy}

/-- The number of bits that rounding cuts off. -/
def cutBits (m : Nat) (e : Int) : Nat :=
  (max (m.log2 + 1 + e - 53) (-1074) - e).toNat

/-- The mantissa behind the cut. -/
def cutMantissa (m : Nat) (e : Int) (acc : Accuracy) : Nat :=
  (ExtendedMantissa.ofMantissaAndAccuracy m acc >>> cutBits m e).roundedMantissa

/-- A mantissa with its exponent, where one that is a bit too long loses it. -/
def settle (sign : Sign) (k : Nat) (e : Int) : UnpackedFloat :=
  if h : k = 0 then .zero sign
  else if k < 2 ^ 53 then .finite sign k e (Nat.pos_of_ne_zero h)
  else .finite sign (2 ^ 52) (e + 1) (by decide)

theorem targetExponent_eq (total : Int) :
    Format.binary64.targetExponent total = max (total - 53) (-1074) := rfl

theorem shiftToTargetExponent_eq (m : Nat) (e : Int) (acc : Accuracy) :
    shiftToTargetExponent Format.binary64 m e acc =
      (ExtendedMantissa.ofMantissaAndAccuracy m acc >>> cutBits m e, e + cutBits m e) := by
  rw [shiftToTargetExponent, targetExponent_eq]
  rfl

theorem log2_lt_cutBits (m : Nat) (e : Int) : m.log2 < 53 + cutBits m e := by
  rw [cutBits]
  omega

theorem le_add_cutBits (m : Nat) (e : Int) : -1074 ≤ e + cutBits m e := by
  rw [cutBits]
  omega

theorem div_lt_of_log2_lt {n s : Nat} (h : m.log2 < n + s) : m / 2 ^ s < 2 ^ n := by
  refine (Nat.div_lt_iff_lt_mul (Nat.two_pow_pos s)).mpr ?_
  rw [← Nat.pow_add]
  by_cases hm : m = 0
  · subst hm
    exact Nat.two_pow_pos _
  · exact (Nat.log2_lt hm).mp h

theorem cutMantissa_bounds (m : Nat) (e : Int) (acc : Accuracy) :
    m / 2 ^ cutBits m e ≤ cutMantissa m e acc ∧
      cutMantissa m e acc ≤ m / 2 ^ cutBits m e + 1 ∧ cutMantissa m e acc ≤ 2 ^ 53 := by
  obtain ⟨hlo, hhi, -⟩ := roundedMantissa_bounds
    (ExtendedMantissa.ofMantissaAndAccuracy m acc >>> cutBits m e)
  rw [mantissa_shift, mantissa_ofAccuracy] at hlo hhi
  have := div_lt_of_log2_lt (log2_lt_cutBits m e)
  exact ⟨hlo, hhi, by rw [cutMantissa]; omega⟩

/-- An exact mantissa is cut to the nearest one. -/
theorem cutMantissa_near (m : Nat) (e : Int) :
    2 * (cutMantissa m e .exact * 2 ^ cutBits m e) ≤ 2 * m + 2 ^ cutBits m e := by
  obtain ⟨-, hhi, hdown⟩ := roundedMantissa_bounds
    (ExtendedMantissa.ofMantissaAndAccuracy m .exact >>> cutBits m e)
  rw [← cutMantissa, mantissa_shift, mantissa_ofAccuracy] at hhi hdown
  have hsplit := Nat.div_add_mod m (2 ^ cutBits m e)
  rw [Nat.mul_comm] at hsplit
  cases hbit : (ExtendedMantissa.ofMantissaAndAccuracy m .exact >>> cutBits m e).roundBit with
  | false =>
      rw [hdown hbit]
      omega
  | true =>
      have hhalf := le_of_roundBit hbit
      have hmul := Nat.mul_le_mul_right (2 ^ cutBits m e) hhi
      rw [Nat.add_mul, Nat.one_mul] at hmul
      omega

theorem cutBits_zero_of_lt {k : Nat} (hk : k < 2 ^ 53) (he : -1074 ≤ e) : cutBits k e = 0 := by
  have hlog : k.log2 < 53 := by
    by_cases h : k = 0
    · simp [h]
    · exact (Nat.log2_lt h).mpr hk
  rw [cutBits]
  omega

theorem cutBits_two_pow (he : -1074 ≤ e) : cutBits (2 ^ 53) e = 1 := by
  rw [cutBits, Nat.log2_two_pow]
  omega

/-- The second cut of rounding takes at most the bit that the first one has carried. -/
theorem settle_eq (sign : Sign) {k : Nat} (hk : k ≤ 2 ^ 53) (he : -1074 ≤ e) :
    (if h : (ExtendedMantissa.ofMantissaAndAccuracy k .exact >>> cutBits k e).mantissa = 0 then
      UnpackedFloat.zero sign
    else .finite sign _ (e + cutBits k e) (Nat.pos_of_ne_zero h)) = settle sign k e := by
  rw [settle]
  obtain hlt | rfl := Nat.lt_or_eq_of_le hk
  · simp only [cutBits_zero_of_lt hlt he, mantissa_shift, mantissa_ofAccuracy, pow_zero,
      Nat.div_one, Nat.cast_zero, Int.add_zero, if_pos hlt]
  · simp only [cutBits_two_pow he, mantissa_shift, mantissa_ofAccuracy]
    rfl

theorem roundWithAccuracy_eq (sign : Sign) (m : Nat) (e : Int) (acc : Accuracy) :
    roundWithAccuracy Format.binary64 sign m e acc =
      settle sign (cutMantissa m e acc) (e + cutBits m e) := by
  have hk : (ExtendedMantissa.ofMantissaAndAccuracy m acc >>> cutBits m e).roundedMantissa =
    cutMantissa m e acc := rfl
  simp only [roundWithAccuracy, shiftToTargetExponent_eq, hk]
  exact settle_eq sign (cutMantissa_bounds m e acc).2.2 (le_add_cutBits m e)

end Rounding

end ComponentAtlas.Number
