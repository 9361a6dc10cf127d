import LuaBinaryTable.Binary64.Equiv.Conversion
import LuaBinaryTable.Binary64.Format

/-!
# Integers in the format `%.14g`

An integer of at most 14 decimal digits is printed in full: the sign, and the digits without leading
zeros (`formatG14_integral`).
-/

namespace LuaBinaryTable

/-! ### Decimal digits -/

@[simp] theorem length_decimalDigits (k n : Nat) : (decimalDigits k n).length = k := by
  induction k generalizing n with
  | zero => rfl
  | succ k ih => rw [decimalDigits, List.length_append, ih, List.length_singleton]

/-- The digits of a multiple of a power of ten end in zeros. -/
theorem decimalDigits_mul_pow (k m n : Nat) :
    decimalDigits (k + m) (n * 10 ^ m) = decimalDigits k n ++ List.replicate m 48 := by
  induction m with
  | zero => simp
  | succ m ih =>
    have hdiv : n * 10 ^ (m + 1) / 10 = n * 10 ^ m := by
      rw [pow_succ, ← mul_assoc, Nat.mul_div_cancel _ (by norm_num)]
    have hmod : n * 10 ^ (m + 1) % 10 = 0 := by
      rw [pow_succ, ← mul_assoc, Nat.mul_mod_left]
    rw [← Nat.add_assoc, decimalDigits, hdiv, hmod, ih, List.append_assoc,
      ← List.replicate_append_replicate]
    rfl

/-- The number that digits denote. -/
def digitsValue (ds : Bytes) : Nat := ds.foldl (fun n d => n * 10 + (d.toNat - 48)) 0

theorem digitsValue_decimalDigits {k n : Nat} (h : n < 10 ^ k) :
    digitsValue (decimalDigits k n) = n := by
  induction k generalizing n with
  | zero =>
    rw [pow_zero, Nat.lt_one_iff] at h
    rw [h]
    rfl
  | succ k ih =>
    have hdigit : (UInt8.ofNat (48 + n % 10)).toNat = 48 + n % 10 := by
      rw [UInt8.toNat_ofNat']
      omega
    have hrec := ih (n := n / 10) (by rw [pow_succ] at h; omega)
    unfold digitsValue at hrec ⊢
    rw [decimalDigits, List.foldl_append, hrec, List.foldl_cons, List.foldl_nil, hdigit]
    omega

/-- Decimal digits are digits. -/
theorem decimalDigits_mem {k n : Nat} {c : UInt8} (h : c ∈ decimalDigits k n) :
    48 ≤ c.toNat ∧ c.toNat ≤ 57 := by
  induction k generalizing n with
  | zero => cases h
  | succ k ih =>
    rw [decimalDigits, List.mem_append, List.mem_singleton] at h
    rcases h with h | rfl
    · exact ih h
    · rw [UInt8.toNat_ofNat']
      omega

/-- The digits of a number, without leading zeros. -/
def natText (n : Nat) : Bytes := decimalDigits (Nat.log 10 n + 1) n

theorem natText_ne_nil (n : Nat) : natText n ≠ [] := by
  rw [← List.length_pos_iff_ne_nil, natText, length_decimalDigits]
  exact Nat.succ_pos _

theorem digitsValue_natText (n : Nat) : digitsValue (natText n) = n :=
  digitsValue_decimalDigits (Nat.lt_pow_succ_log_self (by norm_num) n)

/-! ### The exponent and the significand -/

/-- The exponent found is the one that fits, where the search passes it. -/
theorem decimalExponent_eq {num den : Nat} {y : Int} (hy : powTenLe num den y = true) :
    ∀ (fuel : Nat) (x : Int), y ≤ x → x ≤ y + fuel →
      (∀ z, y < z → z ≤ x → powTenLe num den z = false) →
      decimalExponent num den fuel x = y
  | 0, x, hle, hge, _ => by
    rw [decimalExponent]
    omega
  | fuel + 1, x, hle, hge, hno => by
    rw [decimalExponent]
    rcases eq_or_lt_of_le hle with rfl | hlt
    · rw [if_pos hy]
    · rw [hno x hlt le_rfl, if_neg Bool.false_ne_true]
      exact decimalExponent_eq hy fuel (x - 1) (by omega) (by omega)
        fun z hz hzx => hno z hz (by omega)

namespace Binary64

variable {n : Nat}

theorem decimalExponent_integer (hn : n ≠ 0) (hlog : Nat.log 10 n ≤ 308) :
    decimalExponent (n * scale) scale 632 308 = Nat.log 10 n := by
  have hpow : ∀ k : Nat, powTenLe (n * scale) scale k = decide (10 ^ k ≤ n) := by
    intro k
    rw [powTenLe, if_pos (Int.natCast_nonneg k), Int.toNat_natCast]
    exact decide_eq_decide.mpr (Nat.mul_le_mul_right_iff scale_pos)
  refine decimalExponent_eq ?_ 632 308 (by omega) (by omega) fun z hz _ => ?_
  · rw [hpow, decide_eq_true_eq]
    exact Nat.pow_log_le_self 10 hn
  · obtain ⟨k, rfl⟩ := Int.eq_ofNat_of_zero_le (show 0 ≤ z by omega)
    rw [hpow, decide_eq_false_iff_not, not_le]
    exact Nat.lt_pow_of_log_lt (by norm_num) (by omega)

theorem roundDiv_mul (k : Nat) {den : Nat} (hden : 0 < den) : roundDiv (k * den) den = k := by
  unfold roundDiv
  rw [Nat.mul_div_cancel _ hden, Nat.mul_mod_left]
  simp only [Nat.mul_zero, Nat.not_lt_zero, false_or]
  rw [if_neg (by omega)]

/-- The significand of an integer is the integer, with zeros behind it. -/
theorem significand_integer {x : Nat} (hx : x ≤ 13) :
    significand (n * scale) scale x = n * 10 ^ (13 - x) := by
  unfold significand
  split_ifs with h
  · obtain rfl : x = 13 := by omega
    rw [show (((13 : Nat) : Int) - 13).toNat = 0 from rfl, pow_zero, Nat.mul_one,
      roundDiv_mul n scale_pos, Nat.mul_one]
  · rw [show ((13 : Int) - (x : Int)).toNat = 13 - x by omega, Nat.mul_right_comm,
      roundDiv_mul _ scale_pos]

theorem dropZeros_replicate (m : Nat) : dropZeros (List.replicate m 48) = [] := by
  rw [dropZeros, List.reverse_replicate, List.dropWhile_replicate]
  simp

theorem generalText_integer {x : Nat} (hx : x ≤ 13) :
    generalText (n * 10 ^ (13 - x)) x = decimalDigits (x + 1) n := by
  have hdigits := decimalDigits_mul_pow (x + 1) (13 - x) n
  rw [show x + 1 + (13 - x) = 14 by omega] at hdigits
  have htake : ((x : Int) + 1).toNat = x + 1 := by omega
  have hlen := length_decimalDigits (x + 1) n
  simp only [generalText, hdigits, htake]
  rw [if_neg (by omega), if_pos (Int.natCast_nonneg x), List.take_left' hlen, List.drop_left' hlen,
    dropZeros_replicate, fractionText, if_pos rfl, List.append_nil]

/-- An integer that is not too large is not an infinity. -/
theorem magnitude_ne_infinity {v : Binary64} (hv : v.isIntegral = true)
    (hlt : v.trunc.natAbs < 2 ^ 54) : v.magnitude ≠ infinityMagnitude := by
  intro h
  have hpow : unitsOf ((unitExponent + 2) * 2 ^ 52 + 2 ^ 52) = 2 ^ 54 * scale := by
    have hsplit : (2 : Nat) ^ 54 = 2 ^ 52 * 2 ^ 2 := by norm_num
    rw [unitsOf_normal le_rfl (by norm_num), scale, hsplit, pow_add, Nat.mul_assoc,
      Nat.mul_comm (2 ^ unitExponent)]
  have hbig : 2 ^ 54 * scale < unitsOf infinityMagnitude := by
    rw [← hpow]
    exact unitsOf_strictMono (by norm_num [infinityMagnitude, unitExponent])
  rw [← h, trunc_natAbs hv] at hbig
  exact absurd (Nat.lt_of_mul_lt_mul_right hbig) hlt.le.not_gt

/-- The sign of a number is that of its integer. -/
theorem sign_natAbs_trunc {v : Binary64} (hv : v.isIntegral = true) :
    (if v.negative then -(v.trunc.natAbs : Int) else v.trunc.natAbs) = v.trunc := by
  have hunits := units_eq_trunc hv
  have hscale : (0 : Int) < scale := Int.natCast_pos.mpr scale_pos
  by_cases hneg : v.negative = true
  · have hle : v.units ≤ 0 := by
      rw [units, if_pos hneg]
      exact Int.neg_nonpos_of_nonneg (Int.natCast_nonneg _)
    have htrunc : v.trunc ≤ 0 := by
      by_contra hpos
      have := Int.mul_pos (Int.not_le.mp hpos) hscale
      omega
    rw [if_pos hneg]
    omega
  · have hle : 0 ≤ v.units := by
      rw [units, if_neg hneg]
      exact Int.natCast_nonneg _
    have htrunc : 0 ≤ v.trunc := by
      by_contra hlt
      have := Int.mul_neg_of_neg_of_pos (Int.not_le.mp hlt) hscale
      omega
    rw [if_neg hneg]
    omega

/-- A whole number is printed as its sign, and its significand under its exponent. -/
theorem formatG14_whole {v : Binary64} (hv : v.isIntegral = true) (hne : v.trunc.natAbs ≠ 0)
    (hlt : v.trunc.natAbs < 2 ^ 54) :
    v.formatG14 = (if v.negative then [45] else []) ++
      (let n := v.trunc.natAbs
      let d := significand (n * scale) scale (Nat.log 10 n)
      if d = 10 ^ 14 then generalText (10 ^ 13) (Nat.log 10 n + 1)
      else generalText d (Nat.log 10 n)) := by
  have hunits : v.trunc.natAbs * scale ≠ 0 :=
    (Nat.mul_pos (Nat.pos_of_ne_zero hne) scale_pos).ne'
  have hlog : Nat.log 10 v.trunc.natAbs < 17 :=
    Nat.log_lt_of_lt_pow hne (hlt.trans (by norm_num))
  simp only [formatG14, (isIntegral_iff.mp hv).1, Bool.false_eq_true, if_false,
    if_neg (magnitude_ne_infinity hv hlt), trunc_natAbs hv, if_neg hunits,
    decimalExponent_integer hne (show Nat.log 10 v.trunc.natAbs ≤ 308 by omega)]
  split_ifs <;> rfl

/-- An integer of at most 14 digits is printed as its sign and its digits. -/
theorem formatG14_integral {v : Binary64} (hv : v.isIntegral = true)
    (hlt : v.trunc.natAbs < 10 ^ 14) :
    v.formatG14 = (if v.negative then [45] else []) ++ natText v.trunc.natAbs := by
  have hsmall : v.trunc.natAbs < 2 ^ 54 := hlt.trans (by norm_num)
  by_cases hzero : v.trunc.natAbs = 0
  · simp only [formatG14, (isIntegral_iff.mp hv).1, Bool.false_eq_true, if_false,
      if_neg (magnitude_ne_infinity hv hsmall), trunc_natAbs hv, hzero, Nat.zero_mul, if_true]
    rfl
  · rw [formatG14_whole hv hzero hsmall]
    generalize v.trunc.natAbs = n at hlt hzero
    have hlog : Nat.log 10 n < 14 := Nat.log_lt_of_lt_pow hzero hlt
    -- the significand has no fifteenth digit
    have hsig : n * 10 ^ (13 - Nat.log 10 n) ≠ 10 ^ 14 := by
      have hup := Nat.lt_pow_succ_log_self (b := 10) (by norm_num) n
      refine (calc n * 10 ^ (13 - Nat.log 10 n)
          < 10 ^ (Nat.log 10 n + 1) * 10 ^ (13 - Nat.log 10 n) :=
            Nat.mul_lt_mul_of_pos_right hup (Nat.pow_pos (by norm_num))
        _ = 10 ^ 14 := by rw [← pow_add]; congr 1; omega).ne
    dsimp only
    rw [significand_integer (by omega), if_neg hsig, generalText_integer (by omega), natText]

end Binary64

end LuaBinaryTable
