import ComponentAtlas.Number.Binary

/-!
# Shortest decimal digits

The decimal text of a binary number uses the fewest digits that read back as the same number,
and of those the nearest. The search runs over grids of one to seventeen digits, in exact
arithmetic on natural numbers: a decimal reads back when it lies in the interval of reals that
round to the number.
-/

namespace ComponentAtlas.Number

/-- The half-way interval around `m * 2 ^ e` as numerators over a common denominator: lower end,
value, upper end, denominator, and whether the ends belong to it. -/
structure Interval where
  low : Nat
  value : Nat
  high : Nat
  denominator : Nat
  closed : Bool

/-- The interval of the reals that round to a positive number. -/
def Binary.interval (x : Binary) : Interval :=
  let (m, e) := x.decode
  let narrow := x.fraction = 0 && x.exponentField > 1
  let scale := Nat.pow 2 e.toNat
  { low := (4 * m - (if narrow then 1 else 2)) * scale
    value := 4 * m * scale
    high := (4 * m + 2) * scale
    denominator := 4 * Nat.pow 2 (-e).toNat
    closed := m % 2 == 0 }

/-- Whether the decimal `digits * 10 ^ exponent` lies in the interval. -/
def Interval.holds (i : Interval) (digits : Nat) (exponent : Int) : Bool :=
  let top := digits * Nat.pow 10 exponent.toNat * i.denominator
  let unit := Nat.pow 10 (-exponent).toNat
  if i.closed then i.low * unit ≤ top && top ≤ i.high * unit
  else i.low * unit < top && top < i.high * unit

/-- The greatest multiple of `10 ^ exponent` that is not above the value, in such units. -/
def Interval.floorAt (i : Interval) (exponent : Int) : Nat :=
  i.value * Nat.pow 10 (-exponent).toNat / (i.denominator * Nat.pow 10 exponent.toNat)

/-- Whether the value is nearer to `digits + 1` units than to `digits` units of `10 ^ exponent`;
a tie goes to the even one. -/
def Interval.upper (i : Interval) (digits : Nat) (exponent : Int) : Bool :=
  let middle := (2 * digits + 1) * Nat.pow 10 exponent.toNat * i.denominator
  let double := 2 * i.value * Nat.pow 10 (-exponent).toNat
  middle < double || (middle == double && digits % 2 == 1)

/-- The decimal of a grid that reads back, if the grid has one. -/
def Interval.pick? (i : Interval) (exponent : Int) : Option (Nat × Int) :=
  let floor := i.floorAt exponent
  let fits := i.holds floor exponent
  let fitsNext := i.holds (floor + 1) exponent
  if fits && fitsNext then
    some (if i.upper floor exponent then floor + 1 else floor, exponent)
  else if fits then some (floor, exponent)
  else if fitsNext then some (floor + 1, exponent)
  else none

/-- The exponent of ten such that the value is at least that power and below the next. -/
def Interval.magnitude (i : Interval) : Int :=
  let digits (n : Nat) : Int := (Nat.toDigits 10 n).length
  let guess := digits i.value - digits i.denominator
  if i.floorAt guess = 0 then guess - 1 else guess

/-- Searches the grids from the coarsest on. -/
def Interval.search (i : Interval) (top : Int) : Nat → Nat → Nat × Int
  | 0, _ => (i.floorAt (top - 17), top - 17)
  | tries + 1, count =>
      match i.pick? (top - count) with
      | some found => found
      | none => i.search top tries (count + 1)

/-- Drops the zeros at the end of a decimal. -/
def stripZeros : Nat → Nat × Int → Nat × Int
  | 0, d => d
  | fuel + 1, (digits, exponent) =>
      if digits ≠ 0 ∧ digits % 10 = 0 then stripZeros fuel (digits / 10, exponent + 1)
      else (digits, exponent)

/-- The shortest digits of a positive number and their exponent of ten. -/
def Binary.shortest (x : Binary) : Nat × Int :=
  let i := x.interval
  stripZeros 400 (i.search i.magnitude 18 0)

/-- How a decimal is laid out: where positional notation begins and ends, by the number of
digits in front of the point. -/
structure DecimalLayout where
  positionalFrom : Int
  positionalTo : Int

/-- Zeros as text. -/
def zeros (count : Nat) : String :=
  String.ofList (List.replicate count '0')

/-- The exponent part of a decimal: the sign is always written. -/
def exponentText (exponent : Int) : String :=
  "e" ++ (if exponent < 0 then "-" else "+") ++ toString exponent.natAbs

/-- The text of a decimal under a layout. A whole number keeps one zero behind the point. -/
def DecimalLayout.render (layout : DecimalLayout) (digits : Nat) (exponent : Int) : String :=
  let text := toString digits
  let length := (text.length : Int)
  let point := length + exponent
  if layout.positionalFrom < point ∧ point ≤ layout.positionalTo then
    if 0 ≤ exponent then text ++ zeros exponent.toNat ++ ".0"
    else if 0 < point then
      String.ofList (text.toList.take point.toNat) ++ "." ++
        String.ofList (text.toList.drop point.toNat)
    else "0." ++ zeros (-point).toNat ++ text
  else
    match text.toList with
    | [] => ""
    | [d] => String.ofList [d] ++ exponentText (point - 1)
    | d :: rest => String.ofList [d, '.'] ++ String.ofList rest ++ exponentText (point - 1)

/-- A number in JSON is positional from `1e-5` on and below `1e16`. -/
def jsonLayout : DecimalLayout := ⟨-5, 16⟩

/-- The JSON text of a binary number. -/
def Binary.render (x : Binary) : String :=
  (if x.negative then "-" else "") ++
    (if x.isZero then "0.0" else let (d, e) := x.shortest; jsonLayout.render d e)

end ComponentAtlas.Number
