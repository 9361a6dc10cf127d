import LuaBinaryTable.Binary64.Equiv.Format
import LuaBinaryTable.Source.Numeral
import Mathlib.Data.List.TakeWhile

/-!
# What the format `%.14g` keeps of an integer

Beyond 14 digits the format rounds: an integer is printed as a numeral that denotes its multiple of
a power of ten nearest to it (`numeralValue_formatG14`), and so as itself exactly where its digits
from the fifteenth on are zeros (`rounded_eq_iff`).
-/

namespace LuaBinaryTable

open Binary64 Token

/-! ### Rounded division -/

theorem roundDiv_mul_right (a b : Nat) {k : Nat} (hk : 0 < k) :
    roundDiv (a * k) (b * k) = roundDiv a b := by
  have hlt : b * k < 2 * (a % b * k) ↔ b < 2 * (a % b) := by
    rw [← Nat.mul_assoc]
    exact Nat.mul_lt_mul_right hk
  have heq : b * k = 2 * (a % b * k) ↔ b = 2 * (a % b) := by
    rw [← Nat.mul_assoc]
    exact Nat.mul_left_inj hk.ne'
  simp only [roundDiv, Nat.mul_div_mul_right _ _ hk, Nat.mul_mod_mul_right, hlt, heq]

theorem div_le_roundDiv (a b : Nat) : a / b ≤ roundDiv a b := by
  simp only [roundDiv]
  split_ifs
  · exact Nat.le_succ _
  · exact le_rfl

theorem roundDiv_le_succ_div (a b : Nat) : roundDiv a b ≤ a / b + 1 := by
  simp only [roundDiv]
  split_ifs
  · exact le_rfl
  · exact Nat.le_succ _

/-- Rounding to a multiple changes nothing exactly at the multiples. -/
theorem roundDiv_mul_eq_iff {a b : Nat} (hb : 0 < b) : roundDiv a b * b = a ↔ b ∣ a := by
  constructor
  · intro h
    exact ⟨roundDiv a b, by rw [Nat.mul_comm]; exact h.symm⟩
  · rintro ⟨k, rfl⟩
    rw [Nat.mul_comm b k, roundDiv_mul k hb]

/-! ### Fourteen digits -/

/-- The number of digits beyond the fourteenth. -/
def excessDigits (n : Nat) : Nat := Nat.log 10 n - 13

/-- The multiple of a power of ten, of 14 digits, to which the format rounds. -/
def rounded (n : Nat) : Nat := roundDiv n (10 ^ excessDigits n) * 10 ^ excessDigits n

/-- The integer has at most 14 significant digits. -/
def FitsG14 (n : Nat) : Prop := 10 ^ excessDigits n ∣ n

theorem rounded_eq_iff (n : Nat) : rounded n = n ↔ FitsG14 n :=
  roundDiv_mul_eq_iff (Nat.pow_pos (by norm_num))

theorem excessDigits_of_lt {n : Nat} (h : n < 10 ^ 14) : excessDigits n = 0 := by
  have hlog : Nat.log 10 n < 14 := by
    by_cases hn : n = 0
    · rw [hn, Nat.log_zero_right]
      norm_num
    · exact Nat.log_lt_of_lt_pow hn h
  rw [excessDigits]
  omega

/-- The significand of an integer of 14 digits and more. -/
theorem significand_of_le {n : Nat} (hlog : 13 ≤ Nat.log 10 n) :
    significand (n * scale) scale (Nat.log 10 n) = roundDiv n (10 ^ excessDigits n) := by
  have hexcess : ((Nat.log 10 n : Int) - 13).toNat = excessDigits n := by
    rw [excessDigits]
    omega
  rw [significand, if_pos (by omega), hexcess, Nat.mul_comm scale, roundDiv_mul_right _ _ scale_pos]

/-- It has 14 digits, or is the least number of 15. -/
theorem roundDiv_bounds {n : Nat} (hlog : 13 ≤ Nat.log 10 n) :
    10 ^ 13 ≤ roundDiv n (10 ^ excessDigits n) ∧ roundDiv n (10 ^ excessDigits n) ≤ 10 ^ 14 := by
  have hn : n ≠ 0 := by
    rintro rfl
    rw [Nat.log_zero_right] at hlog
    omega
  have hpos : 0 < 10 ^ excessDigits n := Nat.pow_pos (by norm_num)
  have hlo : 10 ^ 13 ≤ n / 10 ^ excessDigits n := by
    rw [Nat.le_div_iff_mul_le hpos, ← pow_add, excessDigits, Nat.add_sub_cancel' hlog]
    exact Nat.pow_log_le_self 10 hn
  have hhi : n / 10 ^ excessDigits n < 10 ^ 14 := by
    rw [Nat.div_lt_iff_lt_mul hpos, ← pow_add, excessDigits,
      show 14 + (Nat.log 10 n - 13) = Nat.log 10 n + 1 by omega]
    exact Nat.lt_pow_succ_log_self (by norm_num) n
  exact ⟨hlo.trans (div_le_roundDiv _ _), (roundDiv_le_succ_div _ _).trans hhi⟩

/-! ### The exponent form -/

/-- What the digits without trailing zeros leave out. -/
theorem dropZeros_append (ds : Bytes) :
    ∃ k, ds = dropZeros ds ++ List.replicate k 48 := by
  refine ⟨(ds.reverse.takeWhile (· == 48)).length, ?_⟩
  have hzeros : ds.reverse.takeWhile (· == 48) =
      List.replicate (ds.reverse.takeWhile (· == 48)).length 48 := by
    apply List.eq_replicate_of_mem
    intro c hc
    have hzero : (c == 48) = true := List.mem_takeWhile_imp (p := (· == 48)) hc
    exact beq_iff_eq.mp hzero
  have hsplit := congrArg List.reverse
    (List.takeWhile_append_dropWhile (p := (· == 48)) (l := ds.reverse))
  rw [List.reverse_append, List.reverse_reverse, hzeros, List.reverse_replicate] at hsplit
  exact hsplit.symm

theorem digitsValue_append_zeros (ds : Bytes) (k : Nat) :
    digitsValue (ds ++ List.replicate k 48) = digitsValue ds * 10 ^ k := by
  induction k with
  | zero => rw [List.replicate_zero, List.append_nil, pow_zero, Nat.mul_one]
  | succ k ih =>
    have hstep : digitsValue (ds ++ List.replicate (k + 1) 48) =
        digitsValue (ds ++ List.replicate k 48) * 10 := by
      rw [List.replicate_succ', ← List.append_assoc, digitsValue, List.foldl_append]
      rfl
    rw [hstep, ih, pow_succ, Nat.mul_assoc]

/-- The exponent is read back. -/
theorem readExponent_exponentText {x : Nat} (hx : x < 100) :
    readExponent (exponentText x) = some (x : Int) := by
  have htext : exponentText (x : Int) = 101 :: 43 :: decimalDigits 2 x := by
    rw [exponentText, if_neg (by omega), Int.natAbs_natCast, if_pos hx]
  have hdigits : (decimalDigits 2 x).all isDigit = true :=
    List.all_eq_true.mpr fun c hc => isDigit_decimalDigits hc
  have hne : decimalDigits 2 x ≠ [] := by
    rw [← List.length_pos_iff, length_decimalDigits]
    norm_num
  rw [htext]
  simp only [readExponent, List.head?_cons, List.tail_cons, or_true, if_true]
  rw [if_pos ⟨Or.inl trivial, hne, hdigits⟩, if_neg (by decide), digitsValue_decimalDigits hx]

theorem endsDigits_exponentText (x : Int) : EndsDigits (exponentText x) := by
  intro c hc
  obtain rfl : (101 : UInt8) = c := Option.some.inj hc
  decide

/-- The exponent form denotes its significand under its exponent. -/
theorem numeralValue_generalText (negative : Bool) {d x : Nat} (hd : d < 10 ^ 14) (hlo : 14 ≤ x)
    (hhi : x < 100) :
    numeralValue ((if negative then [45] else []) ++ generalText d x) =
      some ((if negative then -1 else 1) * ((d * 10 ^ (x - 13) : Nat) : ℚ)) := by
  obtain ⟨k, hk⟩ := dropZeros_append ((decimalDigits 14 d).drop 1)
  have hlen : (dropZeros ((decimalDigits 14 d).drop 1)).length + k = 13 := by
    have := congrArg List.length hk
    rw [List.length_drop, length_decimalDigits, List.length_append, List.length_replicate] at this
    exact this.symm
  have hsplit : decimalDigits 14 d = (decimalDigits 14 d).take 1 ++
      dropZeros ((decimalDigits 14 d).drop 1) ++ List.replicate k 48 := by
    rw [List.append_assoc, ← hk, List.take_append_drop]
  have hvalue : digitsValue ((decimalDigits 14 d).take 1 ++
      dropZeros ((decimalDigits 14 d).drop 1)) * 10 ^ k = d := by
    rw [← digitsValue_append_zeros, ← hsplit, digitsValue_decimalDigits hd]
  have htext : generalText d x = (decimalDigits 14 d).take 1 ++
      (fractionText (dropZeros ((decimalDigits 14 d).drop 1)) ++ exponentText x) := by
    simp only [generalText]
    rw [if_pos (Or.inr (by omega)), List.append_assoc]
  have hdigits : ∀ c ∈ (decimalDigits 14 d).take 1 ++
      dropZeros ((decimalDigits 14 d).drop 1), isDigit c = true := by
    intro c hc
    apply isDigit_decimalDigits (k := 14) (n := d)
    rw [hsplit]
    exact List.mem_append_left _ hc
  have hne : (decimalDigits 14 d).take 1 ≠ [] := by
    rw [← List.length_pos_iff, List.length_take, length_decimalDigits]
    norm_num
  rw [htext, numeralValue, readNumeral_parts negative hne
    (fun c hc => hdigits c (List.mem_append_left _ hc))
    (fun c hc => hdigits c (List.mem_append_right _ hc)) (endsDigits_exponentText x),
    readExponent_exponentText hhi]
  generalize dropZeros ((decimalDigits 14 d).drop 1) = fraction at hlen hvalue ⊢
  generalize (decimalDigits 14 d).take 1 = whole at hvalue ⊢
  -- the zeros left out are made up for by the exponent
  have hexp : (x : Int) - fraction.length = k + (x - 13 : Nat) := by omega
  show some (_ * (digitsValue (whole ++ fraction) : ℚ) * 10 ^ ((x : Int) - fraction.length)) = _
  rw [mul_assoc, hexp, zpow_add₀ (by norm_num), zpow_natCast, zpow_natCast, ← hvalue]
  push_cast
  rw [mul_assoc (digitsValue (whole ++ fraction) : ℚ)]

/-- The text of an integer denotes the integer rounded to 14 digits. -/
theorem numeralValue_formatG14 {v : Binary64} (hv : v.isIntegral = true)
    (hlt : v.trunc.natAbs < 2 ^ 54) :
    numeralValue v.formatG14 =
      some ((if v.negative then -1 else 1) * (rounded v.trunc.natAbs : ℚ)) := by
  by_cases hsmall : v.trunc.natAbs < 10 ^ 14
  · have hdigits : ∀ c ∈ natText v.trunc.natAbs, isDigit c = true :=
      fun c hc => isDigit_natText hc
    have hread := @readNumeral_parts [] _ [] v.negative (natText_ne_nil v.trunc.natAbs) hdigits
      (List.forall_mem_nil _) (by intro c hc; cases hc)
    rw [show fractionText [] ++ [] = ([] : Bytes) from rfl, List.append_nil] at hread
    rw [formatG14_integral hv hsmall, numeralValue, hread, rounded, excessDigits_of_lt hsmall]
    show some (_ * (digitsValue (natText v.trunc.natAbs ++ []) : ℚ) * 10 ^ ((0 : Int) - 0)) = some _
    rw [List.append_nil, digitsValue_natText, sub_zero, zpow_zero, mul_one, pow_zero,
      roundDiv_mul_eq_iff (b := 1) one_pos |>.mpr (one_dvd _)]
  · have hne : v.trunc.natAbs ≠ 0 := by omega
    have hlog : 14 ≤ Nat.log 10 v.trunc.natAbs :=
      Nat.le_log_of_pow_le (by norm_num) (not_lt.mp hsmall)
    have hlog' : Nat.log 10 v.trunc.natAbs < 17 :=
      Nat.log_lt_of_lt_pow hne (hlt.trans (by norm_num))
    obtain ⟨_, hbound⟩ := roundDiv_bounds (n := v.trunc.natAbs) (by omega)
    rw [formatG14_whole hv hne hlt]
    generalize v.trunc.natAbs = n at hlog hlog' hbound
    dsimp only
    rw [significand_of_le (by omega), rounded]
    -- rounding may carry into a fifteenth digit, which moves the exponent
    by_cases hcarry : roundDiv n (10 ^ excessDigits n) = 10 ^ 14
    · have hexp : Nat.log 10 n + 1 - 13 = excessDigits n + 1 := by
        rw [excessDigits]
        omega
      have hpow : 10 ^ 13 * 10 ^ (excessDigits n + 1) = 10 ^ 14 * 10 ^ excessDigits n := by
        ring
      have htext := numeralValue_generalText (d := 10 ^ 13) (x := Nat.log 10 n + 1) v.negative
        (by norm_num) (by omega) (by omega)
      rw [hexp, hpow, Nat.cast_succ] at htext
      rw [if_pos hcarry, hcarry]
      exact htext
    · rw [if_neg hcarry, numeralValue_generalText v.negative (by omega) hlog (by omega)]
      rfl

end LuaBinaryTable
