/-!
# Finite binary floating point numbers

A finite 64-bit floating point number is kept as its bits, together with the proof that they are
finite, so that equality of numbers is decidable and never fails to be reflexive. `decode` gives
the exact value `m * 2 ^ e`, on which the decimal text is computed in natural numbers.
-/

namespace ComponentAtlas.Number

/-- Whether bits stand for a finite number: the exponent field is not all ones. -/
def isFinite (bits : UInt64) : Bool :=
  (bits >>> 52) &&& 0x7FF != 0x7FF

/-- A finite 64-bit floating point number. -/
structure Binary where
  bits : UInt64
  finite : isFinite bits = true
  deriving DecidableEq

namespace Binary

instance : Inhabited Binary := ⟨⟨0, by decide⟩⟩

/-- The number with the value of a float, unless that is infinite or not a number. -/
def ofFloat? (x : Float) : Option Binary :=
  if h : isFinite x.toBits = true then some ⟨x.toBits, h⟩ else none

/-- Whether the sign bit is set. -/
def negative (x : Binary) : Bool :=
  x.bits >>> 63 != 0

/-- The fraction field. -/
def fraction (x : Binary) : Nat :=
  (x.bits &&& 0xFFFFFFFFFFFFF).toNat

/-- The exponent field. -/
def exponentField (x : Binary) : Nat :=
  ((x.bits >>> 52) &&& 0x7FF).toNat

/-- The significand and the exponent of two whose product is the absolute value. -/
def decode (x : Binary) : Nat × Int :=
  if x.exponentField = 0 then (x.fraction, -1074)
  else (x.fraction + 0x10000000000000, (x.exponentField : Int) - 1075)

/-- Both zeros are zero. -/
def isZero (x : Binary) : Bool :=
  x.bits <<< 1 == 0

/-- Numeric equality: the two zeros are equal, any other numbers only to themselves. -/
def same (x y : Binary) : Bool :=
  x.bits == y.bits || (x.isZero && y.isZero)

@[simp] theorem same_refl (x : Binary) : x.same x = true := by
  simp [same]

theorem same_comm (x y : Binary) : x.same y = y.same x := by
  simp only [same, Bool.and_comm x.isZero]
  rw [Bool.beq_comm]

end Binary

end ComponentAtlas.Number
