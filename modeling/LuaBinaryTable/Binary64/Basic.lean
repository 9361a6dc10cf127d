import Mathlib.Algebra.Group.Nat.Defs
import Mathlib.Algebra.Order.Group.Int
import Mathlib.Data.Nat.Log

/-!
# IEEE 754 binary64 numbers

A `Binary64` is its 64-bit pattern.  Its value is read off the fields as an integer number of
*units* of `2^-1074`, the smallest positive subnormal: every finite number is a whole number of
units, and the infinities read as `±2^1024`, one binade above the largest finite number, so that
comparison of units is comparison of values.  The pattern of a `NaN` has no value; the comparisons
exclude it.

`Binary64/Equiv/Units.lean` proves that units determine the number up to the sign of zero, and
`Binary64/Equiv/Conversion.lean` that the conversions to and from integers are inverse where the
integer has at most 53 significant bits.
-/

namespace LuaBinaryTable

/-- A binary64 number, as its bit pattern. -/
structure Binary64 where
  bits : UInt64
  deriving DecidableEq

namespace Binary64

/-! ### Fields -/

/-- The sign bit. -/
def negative (x : Binary64) : Bool := decide (2 ^ 63 ≤ x.bits.toNat)

/-- The pattern without its sign bit. -/
def magnitude (x : Binary64) : Nat := x.bits.toNat % 2 ^ 63

/-- The number with the given sign and magnitude. -/
def ofMagnitude (negative : Bool) (m : Nat) : Binary64 :=
  ⟨UInt64.ofNat ((if negative then 2 ^ 63 else 0) + m)⟩

/-- The magnitude of the infinities: exponent field 2047, fraction 0. -/
def infinityMagnitude : Nat := 2047 * 2 ^ 52

def isNaN (x : Binary64) : Bool := decide (infinityMagnitude < x.magnitude)

/-- A unit is `2^-unitExponent`. -/
def unitExponent : Nat := 1074

/-- The number of units in the integer one. -/
def scale : Nat := 2 ^ unitExponent

/-- The value of a magnitude in units of `2^-1074`. -/
def unitsOf (m : Nat) : Nat :=
  if m / 2 ^ 52 = 0 then m % 2 ^ 52 else (2 ^ 52 + m % 2 ^ 52) * 2 ^ (m / 2 ^ 52 - 1)

/-- The value in units of `2^-1074`. -/
def units (x : Binary64) : Int :=
  if x.negative then -(unitsOf x.magnitude : Int) else unitsOf x.magnitude

/-! ### Comparison -/

/-- The comparison `==`: false on `NaN`, true on the two zeros. -/
def equal (x y : Binary64) : Bool := !x.isNaN && !y.isNaN && decide (x.units = y.units)

/-- The comparison `<`. -/
def less (x y : Binary64) : Bool := !x.isNaN && !y.isNaN && decide (x.units < y.units)

/-! ### Conversion from integers -/

/-- `n / 2^s`, rounded to nearest, ties to even. -/
def roundShift (n s : Nat) : Nat :=
  let q := n >>> s
  let r := n % 2 ^ s
  if 2 ^ s < 2 * r ∨ (2 ^ s = 2 * r ∧ q % 2 = 1) then q + 1 else q

/-- The magnitude nearest to `n`, ties to even.  A carry out of the significand runs into the
exponent field, which is the next binade. -/
def magnitudeOfNat (n : Nat) : Nat :=
  if n = 0 then 0
  else if n.log2 ≤ 52 then (n.log2 + 1022) * 2 ^ 52 + n * 2 ^ (52 - n.log2)
  else (n.log2 + 1022) * 2 ^ 52 + roundShift n (n.log2 - 52)

/-- The conversion of an integer, rounding to nearest. -/
def ofInt (z : Int) : Binary64 := ofMagnitude (decide (z < 0)) (magnitudeOfNat z.natAbs)

/-! ### Rounding and conversion to integers -/

/-- The C function `round`: the nearest integer, halves away from zero, the sign kept.  From
`2^52` on (exponent field 1075) every number is an integer, an infinity or a `NaN`. -/
def round (x : Binary64) : Binary64 :=
  if 1075 ≤ x.magnitude / 2 ^ 52 then x
  else ofMagnitude x.negative (magnitudeOfNat ((unitsOf x.magnitude + scale / 2) / scale))

/-- The number is equal to its own `round`: an integer or an infinity. -/
def isIntegral (x : Binary64) : Bool := x.equal x.round

/-- The value truncated toward zero. -/
def trunc (x : Binary64) : Int := x.units.tdiv scale

/-- The range of a 64-bit signed integer. -/
def InInt64 (z : Int) : Prop := -2 ^ 63 ≤ z ∧ z < 2 ^ 63

instance (z : Int) : Decidable (InInt64 z) := inferInstanceAs (Decidable (_ ∧ _))

/-! ### Widening from binary32 -/

/-- The conversion of a binary32 pattern.  A subnormal is normalised, and a `NaN` keeps its
payload and becomes quiet. -/
def ofBinary32 (b : UInt32) : Binary64 :=
  let negative := decide (2 ^ 31 ≤ b.toNat)
  let m := b.toNat % 2 ^ 31
  let e := m / 2 ^ 23
  let f := m % 2 ^ 23
  if e = 255 then
    ofMagnitude negative (infinityMagnitude + if f = 0 then 0 else f % 2 ^ 22 * 2 ^ 29 + 2 ^ 51)
  else if e = 0 then
    ofMagnitude negative
      (if f = 0 then 0 else (f.log2 + 873) * 2 ^ 52 + f * 2 ^ (52 - f.log2))
  else ofMagnitude negative ((e + 896) * 2 ^ 52 + f * 2 ^ 29)

end Binary64

end LuaBinaryTable
