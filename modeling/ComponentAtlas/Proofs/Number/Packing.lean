import ComponentAtlas.Proofs.Number.Rounding

/-!
# Floats and their parts

The sign, the mantissa and the exponent of a float that is not too great survive packing into
bits, and the bits of such a float are finite.
-/

namespace ComponentAtlas.Number

open Float.Model Float.Model.UnpackedFloat

/-- The parts of a finite float: the mantissa has full length, unless the exponent is least. -/
inductive Fits : UnpackedFloat → Prop where
  | zero (s : Sign) : Fits (.zero s)
  | subnormal (s : Sign) {m : Nat} (hm : 0 < m) (hhi : m < 2 ^ 52) : Fits (.finite s m (-1074) hm)
  | normal (s : Sign) {m : Nat} {e : Int} (hm : 0 < m) (hlo : 2 ^ 52 ≤ m) (hhi : m < 2 ^ 53)
      (he : -1074 ≤ e) (he' : e ≤ 971) : Fits (.finite s m e hm)

section Packing

variable {s : Sign} {m : Nat} {e : Int}

theorem unpackSign_packComponents (s : Sign) (exponent : BitVec 11) (mantissa : BitVec 52) :
    Sign.ofBitVec (unpackSign (packComponents Format.binary64 s exponent mantissa)) = s := by
  simp only [unpackSign, packComponents, BitVec.extractLsb]
  rw [BitVec.extractLsb'_append_eq_of_le (by decide),
    BitVec.extractLsb'_append_eq_of_le (by decide)]
  cases s <;> rfl

/-- The parts that unpacking makes of the fields of a float. -/
theorem unpack_packComponents (s : Sign) (exponent : BitVec 11) (mantissa : BitVec 52)
    (he : exponent ≠ -1#11) :
    unpack Format.binary64 (packComponents Format.binary64 s exponent mantissa) =
      if exponent = 0#11 then
        if h : mantissa = 0#52 then UnpackedFloat.zero s
        else .finite s mantissa.toNat (-1074) (by simpa [BitVec.toNat_pos, BitVec.pos_iff_ne_zero])
      else .finite s (2 ^ 52 + mantissa.toNat) (exponent.toNat - 1075) (by positivity) := by
  have hmantissa : (1#1 ++ mantissa).toNat = 2 ^ 52 + mantissa.toNat := by
    rw [BitVec.toNat_append, ← Nat.shiftLeft_add_eq_or_of_lt mantissa.isLt]
    rfl
  simp only [UnpackedFloat.unpack, unpackMantissa_packComponents, unpackExponent_packComponents,
    unpackSign_packComponents, if_neg he, hmantissa]
  split
  · rename_i hzero
    subst hzero
    rfl
  · rfl

theorem unpack_pack_zero (s : Sign) : (Float.Model.pack (.zero s)).unpack = .zero s := by
  cases s <;> rfl

theorem unpack_pack_subnormal (hm : 0 < m) (hhi : m < 2 ^ 52) :
    (Float.Model.pack (.finite s m (-1074) hm)).unpack = .finite s m (-1074) hm := by
  have hlog : ¬ m.log2 + 1 = Format.binary64.mantissaBits := by
    have := (Nat.log2_lt (by omega)).mpr hhi
    change ¬ m.log2 + 1 = 53
    omega
  have hnat : (BitVec.ofNat 52 m).toNat = m := by
    rw [BitVec.toNat_ofNat, Nat.mod_eq_of_lt hhi]
  have hne : BitVec.ofNat 52 m ≠ 0#52 := by
    intro h
    rw [h] at hnat
    exact hm.ne hnat
  change unpack Format.binary64 (UnpackedFloat.pack Format.binary64 _) = _
  simp only [UnpackedFloat.pack]
  rw [if_neg (by decide), if_neg hlog]
  rw [unpack_packComponents s _ _ (by decide), if_pos rfl, dif_neg hne]
  simp only [hnat]

theorem unpack_pack_normal (hm : 0 < m) (hlo : 2 ^ 52 ≤ m) (hhi : m < 2 ^ 53) (he : -1074 ≤ e)
    (he' : e ≤ 971) : (Float.Model.pack (.finite s m e hm)).unpack = .finite s m e hm := by
  have hlog : m.log2 + 1 = Format.binary64.mantissaBits := by
    rw [(Nat.log2_eq_iff (by omega)).mpr ⟨hlo, hhi⟩]
    rfl
  have hnat : (BitVec.ofNat 52 m).toNat = m - 2 ^ 52 := by
    rw [BitVec.toNat_ofNat]
    omega
  have hexp : (BitVec.ofNat 11 (e + 1023 + 52).toNat).toNat = (e + 1075).toNat := by
    rw [BitVec.toNat_ofNat]
    omega
  have hne : BitVec.ofNat 11 (e + 1023 + 52).toNat ≠ -1#11 := by
    intro h
    rw [h] at hexp
    change 2047 = _ at hexp
    omega
  have hne' : BitVec.ofNat 11 (e + 1023 + 52).toNat ≠ 0#11 := by
    intro h
    rw [h] at hexp
    change 0 = _ at hexp
    omega
  change unpack Format.binary64 (UnpackedFloat.pack Format.binary64 _) = _
  simp only [UnpackedFloat.pack]
  rw [if_neg (by change ¬ 2 ^ 11 ≤ (e + (1023 : Nat) + (52 : Nat)).toNat + 1; omega), if_pos hlog]
  change unpack Format.binary64 (packComponents Format.binary64 s
    (BitVec.ofNat 11 (e + 1023 + 52).toNat) (BitVec.ofNat 52 m)) = _
  rw [unpack_packComponents s _ _ hne, if_neg hne']
  have hmantissa : 2 ^ 52 + (m - 2 ^ 52) = m := by omega
  have hexponent : ((e + 1075).toNat : Int) - 1075 = e := by omega
  simp only [hnat, hexp, hmantissa, hexponent]

/-- Packing keeps the parts of a finite float. -/
theorem unpack_pack {u : UnpackedFloat} (h : Fits u) : (Float.Model.pack u).unpack = u := by
  cases h with
  | zero s => exact unpack_pack_zero s
  | subnormal s hm hhi => exact unpack_pack_subnormal hm hhi
  | normal s hm hlo hhi he he' => exact unpack_pack_normal hm hlo hhi he he'

end Packing

theorem unpackExponent_eq (bits : UInt64) :
    (@unpackExponent Format.binary64 bits.toBitVec).toNat =
      ((bits >>> 52) &&& 0x7FF).toNat := by
  rw [UInt64.toNat_and, UInt64.toNat_shiftRight]
  change (bits.toBitVec.extractLsb 62 52).toNat = bits.toNat >>> 52 &&& 2 ^ 11 - 1
  rw [Nat.and_two_pow_sub_one_eq_mod, BitVec.extractLsb_toNat]
  rfl

/-- The bits of a float with finite parts are finite. -/
theorem isFinite_toBits {x : Float} (h : Fits x.toModel.unpack) : isFinite x.toBits = true := by
  have hexp : @unpackExponent Format.binary64 x.toBits.toBitVec ≠ -1#11 := by
    intro hinf
    change Fits (unpack Format.binary64 x.toBits.toBitVec) at h
    simp only [UnpackedFloat.unpack, if_pos hinf] at h
    split at h <;> cases h
  rw [isFinite, bne_iff_ne]
  intro hfield
  refine hexp (BitVec.eq_of_toNat_eq ?_)
  rw [unpackExponent_eq, hfield]
  rfl

end ComponentAtlas.Number
