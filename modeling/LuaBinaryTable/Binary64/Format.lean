import LuaBinaryTable.Binary64.Basic
import LuaBinaryTable.Bytes.LittleEndian

/-!
# The C format `%.14g`

The value is rounded to 14 significant decimal digits, ties to even, and printed in positional form
where its decimal exponent is from -4 to 13 and in exponent form elsewhere; trailing zeros of the
fraction are dropped.
-/

namespace LuaBinaryTable

/-- The last `k` decimal digits of `n`, most significant first. -/
def decimalDigits : Nat → Nat → Bytes
  | 0, _ => []
  | k + 1, n => decimalDigits k (n / 10) ++ [UInt8.ofNat (48 + n % 10)]

/-- `10^x ≤ num / den`. -/
def powTenLe (num den : Nat) (x : Int) : Bool :=
  if 0 ≤ x then decide (10 ^ x.toNat * den ≤ num) else decide (den ≤ num * 10 ^ (-x).toNat)

/-- The greatest exponent from `x` down, among `fuel + 1`, with `10^x ≤ num / den`. -/
def decimalExponent (num den : Nat) : Nat → Int → Int
  | 0, x => x
  | fuel + 1, x => if powTenLe num den x then x else decimalExponent num den fuel (x - 1)

/-- `num / den` rounded to an integer, ties to even. -/
def roundDiv (num den : Nat) : Nat :=
  let q := num / den
  let r := num % den
  if den < 2 * r ∨ (den = 2 * r ∧ q % 2 = 1) then q + 1 else q

/-- The 14-digit significand of `num / den` under the decimal exponent `x`. -/
def significand (num den : Nat) (x : Int) : Nat :=
  if 13 ≤ x then roundDiv num (den * 10 ^ (x - 13).toNat)
  else roundDiv (num * 10 ^ (13 - x).toNat) den

/-- The digits without trailing zeros. -/
def dropZeros (ds : Bytes) : Bytes := (ds.reverse.dropWhile (· == 48)).reverse

/-- A decimal point and a fraction, nothing where the fraction is empty. -/
def fractionText (ds : Bytes) : Bytes := if ds = [] then [] else 46 :: ds

/-- The exponent of the form `e+XX`, at least two digits. -/
def exponentText (x : Int) : Bytes :=
  101 :: (if x < 0 then 45 else 43) ::
    decimalDigits (if x.natAbs < 100 then 2 else 3) x.natAbs

/-- The significand `d` of 14 digits under the decimal exponent `x`. -/
def generalText (d : Nat) (x : Int) : Bytes :=
  let ds := decimalDigits 14 d
  if x < -4 ∨ 14 ≤ x then ds.take 1 ++ fractionText (dropZeros (ds.drop 1)) ++ exponentText x
  else if 0 ≤ x then ds.take (x + 1).toNat ++ fractionText (dropZeros (ds.drop (x + 1).toNat))
  else [48] ++ fractionText (List.replicate (-x - 1).toNat 48 ++ dropZeros ds)

/-- `sprintf` of a number with `%.14g`. -/
def Binary64.formatG14 (v : Binary64) : Bytes :=
  let sign := if v.negative then [45] else []
  let num := Binary64.unitsOf v.magnitude
  if v.isNaN then sign ++ bytesOf "nan"
  else if v.magnitude = Binary64.infinityMagnitude then sign ++ bytesOf "inf"
  else if num = 0 then sign ++ [48]
  else
    let x := decimalExponent num Binary64.scale 632 308
    let d := significand num Binary64.scale x
    -- rounding may carry into a fifteenth digit
    if d = 10 ^ 14 then sign ++ generalText (10 ^ 13) (x + 1) else sign ++ generalText d x

end LuaBinaryTable
