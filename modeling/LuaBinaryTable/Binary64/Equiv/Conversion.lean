import LuaBinaryTable.Binary64.Equiv.Units
import Mathlib.Tactic.Linarith
import Mathlib.Tactic.NormNum
import Mathlib.Tactic.Positivity

/-!
# Conversion between integers and binary64

`magnitudeOfNat n` is the magnitude of value `n` exactly when `n` has at most 53 significant bits
(`unitsOf_magnitudeOfNat`).  A number whose value is a whole number has such a value
(`exact_of_unitsOf`), so converting it to an integer and back gives an equal number
(`ofInt_trunc_equal`).  `isIntegral_iff` says what the test `x == round(x)` decides.
-/

namespace LuaBinaryTable.Binary64

theorem scale_pos : 0 < scale := Nat.two_pow_pos unitExponent

/-- A power of two up to `scale`, written with what is missing to it. -/
theorem pow_mul_of_le {k : Nat} (h : k ≤ 1074) : 2 ^ (1074 - k) * 2 ^ k = scale :=
  Nat.pow_sub_mul_pow 2 (show k ≤ unitExponent from h)

/-- A power of two from `scale` on, written as a multiple of it. -/
theorem pow_eq_mul_scale {k : Nat} (h : 1074 ≤ k) : 2 ^ k = 2 ^ (k - 1074) * scale :=
  (Nat.pow_sub_mul_pow 2 (show unitExponent ≤ k from h)).symm

/-- `n` has at most 53 significant bits. -/
def Exact (n : Nat) : Prop := n.log2 ≤ 52 ∨ 2 ^ (n.log2 - 52) ∣ n

theorem exact_of_lt {n : Nat} (h : n < 2 ^ 53) : Exact n := by
  rcases Nat.eq_zero_or_pos n with rfl | hn
  · exact Or.inl (by decide)
  · refine Or.inl ?_
    have := (Nat.log2_lt (by omega)).mpr h
    omega

/-- The significand `m ∈ [2^52, 2^53)` under the exponent field `k + 1` has `m · 2^k` units. -/
theorem unitsOf_normal {k m : Nat} (hlo : 2 ^ 52 ≤ m) (hhi : m < 2 ^ 53) :
    unitsOf (k * 2 ^ 52 + m) = m * 2 ^ k := by
  have hd : (k * 2 ^ 52 + m) / 2 ^ 52 = k + 1 := by omega
  have hm : (k * 2 ^ 52 + m) % 2 ^ 52 = m - 2 ^ 52 := by omega
  unfold unitsOf
  rw [hd, hm, if_neg (Nat.succ_ne_zero k), Nat.add_sub_cancel, Nat.add_sub_cancel' hlo]

theorem roundShift_of_dvd {n s : Nat} (h : 2 ^ s ∣ n) : roundShift n s = n / 2 ^ s := by
  unfold roundShift
  rw [Nat.mod_eq_zero_of_dvd h, Nat.shiftRight_eq_div_pow]
  have := Nat.two_pow_pos s
  simp

/-- The significand of an exact `n` above `2^52`. -/
theorem div_pow_bounds {n : Nat} (hn : n ≠ 0) (hk : 52 < n.log2) :
    2 ^ 52 ≤ n / 2 ^ (n.log2 - 52) ∧ n / 2 ^ (n.log2 - 52) < 2 ^ 53 := by
  have hlo := Nat.log2_self_le hn
  have hhi := (Nat.log2_lt hn).mp (Nat.lt_succ_self n.log2)
  constructor
  · rw [Nat.le_div_iff_mul_le (Nat.two_pow_pos _), ← Nat.pow_add]
    rwa [show 52 + (n.log2 - 52) = n.log2 by omega]
  · rw [Nat.div_lt_iff_lt_mul (Nat.two_pow_pos _), ← Nat.pow_add]
    rwa [show 53 + (n.log2 - 52) = n.log2 + 1 by omega]

theorem mul_pow_bounds {n : Nat} (hn : n ≠ 0) (hk : n.log2 ≤ 52) :
    2 ^ 52 ≤ n * 2 ^ (52 - n.log2) ∧ n * 2 ^ (52 - n.log2) < 2 ^ 53 := by
  have hlo := Nat.log2_self_le hn
  have hhi := (Nat.log2_lt hn).mp (Nat.lt_succ_self n.log2)
  constructor
  · calc 2 ^ 52 = 2 ^ n.log2 * 2 ^ (52 - n.log2) := by rw [← Nat.pow_add]; congr 1; omega
      _ ≤ n * 2 ^ (52 - n.log2) := Nat.mul_le_mul_right _ hlo
  · calc n * 2 ^ (52 - n.log2) < 2 ^ (n.log2 + 1) * 2 ^ (52 - n.log2) :=
          Nat.mul_lt_mul_of_pos_right hhi (Nat.two_pow_pos _)
      _ = 2 ^ 53 := by rw [← Nat.pow_add]; congr 1; omega

/-- An integer whose digits fit the significand is represented as it is. -/
theorem unitsOf_magnitudeOfNat {n : Nat} (h : Exact n) :
    unitsOf (magnitudeOfNat n) = n * scale := by
  unfold magnitudeOfNat
  rcases Nat.eq_zero_or_pos n with rfl | hn
  · simp
  · have hn' : n ≠ 0 := by omega
    rw [if_neg hn']
    split_ifs with hk
    · obtain ⟨hlo, hhi⟩ := mul_pow_bounds hn' hk
      have hp := pow_mul_of_le (k := n.log2 + 1022) (by omega)
      rw [show 1074 - (n.log2 + 1022) = 52 - n.log2 by omega] at hp
      rw [unitsOf_normal hlo hhi, Nat.mul_assoc, hp]
    · have hd : 2 ^ (n.log2 - 52) ∣ n := h.resolve_left hk
      obtain ⟨hlo, hhi⟩ := div_pow_bounds hn' (by omega)
      rw [roundShift_of_dvd hd, unitsOf_normal hlo hhi]
      have hp := pow_eq_mul_scale (k := n.log2 + 1022) (by omega)
      rw [show n.log2 + 1022 - 1074 = n.log2 - 52 by omega] at hp
      rw [hp, ← Nat.mul_assoc, Nat.div_mul_cancel hd]

/-- A value that some magnitude has has at most 53 significant bits. -/
theorem exact_of_unitsOf {m n : Nat} (h : unitsOf m = n * scale) : Exact n := by
  unfold unitsOf at h
  split_ifs at h with h0
  · refine exact_of_lt (lt_of_le_of_lt ?_ (Nat.lt_trans (Nat.mod_lt m (Nat.two_pow_pos 52))
      (by norm_num)))
    rw [h]
    exact Nat.le_mul_of_pos_right _ scale_pos
  · set s := 2 ^ 52 + m % 2 ^ 52 with hs
    set k := m / 2 ^ 52 - 1
    have hslo : 2 ^ 52 ≤ s := by omega
    have hshi : s < 2 ^ 53 := by omega
    rcases Nat.lt_or_ge k 1074 with hk | hk
    · -- below one unit per integer: `n` is at most the significand
      refine exact_of_lt (lt_of_le_of_lt ?_ hshi)
      rw [← pow_mul_of_le hk.le, ← Nat.mul_assoc] at h
      have := Nat.eq_of_mul_eq_mul_right (Nat.two_pow_pos k) h
      rw [this]
      exact Nat.le_mul_of_pos_right _ (Nat.two_pow_pos _)
    · rw [pow_eq_mul_scale hk, ← Nat.mul_assoc] at h
      have hn : s * 2 ^ (k - 1074) = n := Nat.eq_of_mul_eq_mul_right scale_pos h
      have hn0 : n ≠ 0 := by
        rw [← hn]; exact Nat.mul_ne_zero (by omega) (Nat.two_pow_pos _).ne'
      have hlog : n.log2 = 52 + (k - 1074) := by
        refine (Nat.log2_eq_iff hn0).mpr ⟨?_, ?_⟩
        · rw [← hn, Nat.pow_add]; exact Nat.mul_le_mul_right _ hslo
        · rw [← hn, show 52 + (k - 1074) + 1 = 53 + (k - 1074) by omega, Nat.pow_add 2 53]
          exact Nat.mul_lt_mul_of_pos_right hshi (Nat.two_pow_pos _)
      refine Or.inr ?_
      rw [hlog, Nat.add_sub_cancel_left, ← hn]
      exact Nat.dvd_mul_left _ _

/-- The integers of 64 bits are finite numbers. -/
theorem magnitudeOfNat_lt {n : Nat} (h : n < 2 ^ 64) : magnitudeOfNat n < infinityMagnitude := by
  unfold magnitudeOfNat infinityMagnitude
  split_ifs with h0 hk
  · norm_num
  · have := (mul_pow_bounds h0 hk).2
    omega
  · have hlog : n.log2 < 64 := (Nat.log2_lt h0).mpr h
    have hq := (div_pow_bounds h0 (by omega)).2
    have hr : roundShift n (n.log2 - 52) ≤ n / 2 ^ (n.log2 - 52) + 1 := by
      unfold roundShift
      rw [Nat.shiftRight_eq_div_pow]
      dsimp only
      split_ifs <;> omega
    omega

/-! ### The integers -/

theorem infinityMagnitude_lt : infinityMagnitude < 2 ^ 63 := by decide

theorem isNaN_ofInt {z : Int} (h : z.natAbs < 2 ^ 64) : (ofInt z).isNaN = false := by
  have hm := magnitudeOfNat_lt h
  have hi := infinityMagnitude_lt
  unfold isNaN ofInt
  rw [magnitude_ofMagnitude _ (by omega)]
  simp only [decide_eq_false_iff_not]
  omega

theorem units_ofInt {z : Int} (h : z.natAbs < 2 ^ 64) (he : Exact z.natAbs) :
    (ofInt z).units = z * scale := by
  have hm := magnitudeOfNat_lt h
  have hi := infinityMagnitude_lt
  unfold units ofInt
  rw [negative_ofMagnitude _ (by omega), magnitude_ofMagnitude _ (by omega),
    unitsOf_magnitudeOfNat he]
  rw [Int.natCast_mul, Int.natCast_natAbs]
  rcases lt_or_ge z 0 with hz | hz
  · rw [abs_of_neg hz, if_pos (decide_eq_true hz), Int.neg_mul, Int.neg_neg]
  · rw [abs_of_nonneg hz, if_neg (by rw [decide_eq_true_eq]; exact not_lt.mpr hz)]

/-- The integers up to `2^53` convert exactly. -/
theorem units_ofInt_of_le {z : Int} (h : z.natAbs < 2 ^ 53) : (ofInt z).units = z * scale :=
  units_ofInt (lt_trans h (by norm_num)) (exact_of_lt h)

theorem isNaN_ofInt_of_le {z : Int} (h : z.natAbs < 2 ^ 53) : (ofInt z).isNaN = false :=
  isNaN_ofInt (lt_trans h (by norm_num))

theorem equal_ofInt_iff {a b : Int} (ha : a.natAbs < 2 ^ 53) (hb : b.natAbs < 2 ^ 53) :
    (ofInt a).equal (ofInt b) = true ↔ a = b := by
  unfold equal
  rw [isNaN_ofInt_of_le ha, isNaN_ofInt_of_le hb, units_ofInt_of_le ha, units_ofInt_of_le hb]
  simp only [Bool.not_false, Bool.true_and, decide_eq_true_eq]
  exact mul_left_inj' (Int.natCast_ne_zero.mpr scale_pos.ne')

theorem trunc_ofInt {z : Int} (h : z.natAbs < 2 ^ 53) : (ofInt z).trunc = z := by
  unfold trunc
  rw [units_ofInt_of_le h]
  exact Int.mul_tdiv_cancel _ (Int.natCast_ne_zero.mpr scale_pos.ne')

/-! ### Whole numbers -/

theorem unitsOf_dvd_of_exponent {m : Nat} (h : 1075 ≤ m / 2 ^ 52) : scale ∣ unitsOf m := by
  unfold unitsOf
  rw [if_neg (by omega), pow_eq_mul_scale (k := m / 2 ^ 52 - 1) (by omega)]
  exact Dvd.dvd.mul_left (Nat.dvd_mul_left _ _) _

/-- Rounding a magnitude below `2^52` gives a whole number of at most 53 bits. -/
theorem half_add_div_lt {m : Nat} (h : m / 2 ^ 52 < 1075) :
    (unitsOf m + scale / 2) / scale < 2 ^ 53 := by
  have hm : unitsOf m < 2 ^ 52 * scale := by
    unfold scale
    rw [← unitsOf_normal le_rfl (by norm_num)]
    exact unitsOf_strictMono (by unfold unitExponent; omega)
  have hs := scale_pos
  rw [Nat.div_lt_iff_lt_mul scale_pos]
  omega

/-- What the test `x == round(x)` decides. -/
theorem isIntegral_iff {x : Binary64} :
    x.isIntegral = true ↔ x.isNaN = false ∧ scale ∣ unitsOf x.magnitude := by
  unfold isIntegral round
  split_ifs with he
  -- from 2^52 on every number is whole
  · simp [equal_iff, unitsOf_dvd_of_exponent he]
  · have hlt := half_add_div_lt (not_le.mp he)
    set n := (unitsOf x.magnitude + scale / 2) / scale with hn
    have hmag := magnitudeOfNat_lt (lt_trans hlt (by norm_num))
    have hmag' : magnitudeOfNat n < 2 ^ 63 := lt_trans hmag infinityMagnitude_lt
    have hnan : (ofMagnitude x.negative (magnitudeOfNat n)).isNaN = false := by
      unfold isNaN
      rw [magnitude_ofMagnitude _ hmag']
      simp only [decide_eq_false_iff_not]
      omega
    -- below, the rounded number is exact, so equality says that no fraction was dropped
    have hunits : x.units = (ofMagnitude x.negative (magnitudeOfNat n)).units ↔
        unitsOf x.magnitude = n * scale := by
      unfold units
      rw [magnitude_ofMagnitude _ hmag', negative_ofMagnitude _ hmag',
        unitsOf_magnitudeOfNat (exact_of_lt hlt)]
      split_ifs
      · rw [Int.neg_inj, Int.natCast_inj]
      · rw [Int.natCast_inj]
    unfold equal
    rw [hnan]
    simp only [Bool.not_false, Bool.and_true, Bool.and_eq_true, Bool.not_eq_true',
      decide_eq_true_eq, hunits]
    refine and_congr_right fun _ => ⟨fun h => ⟨n, by rw [h, Nat.mul_comm]⟩, ?_⟩
    rintro ⟨c, hc⟩
    have hnc : n = c := by
      have hs := scale_pos
      rw [hn, hc, Nat.mul_add_div scale_pos, Nat.div_eq_of_lt (by omega), Nat.add_zero]
    rw [hnc, hc, Nat.mul_comm]

/-- The value of a whole number is `trunc`. -/
theorem trunc_natAbs {x : Binary64} (h : x.isIntegral = true) :
    unitsOf x.magnitude = x.trunc.natAbs * scale := by
  obtain ⟨c, hc⟩ := (isIntegral_iff.mp h).2
  have htr : x.trunc.natAbs = c := by
    unfold trunc units
    rw [hc]
    split_ifs
    · push_cast
      rw [Int.neg_tdiv, Int.mul_tdiv_cancel_left _ (Int.natCast_ne_zero.mpr scale_pos.ne'),
        Int.natAbs_neg, Int.natAbs_natCast]
    · push_cast
      rw [Int.mul_tdiv_cancel_left _ (Int.natCast_ne_zero.mpr scale_pos.ne'), Int.natAbs_natCast]
  rw [hc, htr, Nat.mul_comm]

theorem units_eq_trunc {x : Binary64} (h : x.isIntegral = true) :
    x.units = x.trunc * scale := by
  obtain ⟨c, hc⟩ := (isIntegral_iff.mp h).2
  have hdvd : (scale : Int) ∣ x.units := by
    unfold units
    rw [hc]
    push_cast
    split_ifs
    · exact (Int.dvd_neg).mpr (Dvd.intro _ rfl)
    · exact Dvd.intro _ rfl
  unfold trunc
  exact (Int.tdiv_mul_cancel hdvd).symm

/-- **Integers survive the conversion**: a whole number within the finite range, converted to an
integer and back, is an equal number. -/
theorem ofInt_trunc_equal {x : Binary64} (h : x.isIntegral = true)
    (hr : x.trunc.natAbs < 2 ^ 64) : (ofInt x.trunc).equal x = true := by
  have hex : Exact x.trunc.natAbs := exact_of_unitsOf (trunc_natAbs h)
  unfold equal
  rw [isNaN_ofInt hr, (isIntegral_iff.mp h).1, units_ofInt hr hex, units_eq_trunc h]
  simp only [Bool.not_false, Bool.true_and, decide_true]

end LuaBinaryTable.Binary64
