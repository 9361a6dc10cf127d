import LuaBinaryTable.Binary64.Basic
import Mathlib.Order.Monotone.Basic
import Mathlib.Tactic.Ring
import Mathlib.Tactic.SplitIfs

/-!
# Units determine the number

`unitsOf` is strictly increasing in the magnitude (`unitsOf_strictMono`), so a number that is not
a `NaN` is determined by its units up to the sign of zero (`equal_iff`).  Hence `equal` is an
equivalence on the numbers that are not `NaN`.
-/

namespace LuaBinaryTable.Binary64

/-! ### Units of a magnitude -/

/-- The value grows with the bits of the magnitude, across binades too. -/
theorem unitsOf_lt_succ (m : Nat) : unitsOf m < unitsOf (m + 1) := by
  unfold unitsOf
  by_cases hc : m % 2 ^ 52 + 1 = 2 ^ 52
  · -- the fraction is full: `m + 1` starts the next binade
    have hd : (m + 1) / 2 ^ 52 = m / 2 ^ 52 + 1 := by omega
    have hm : (m + 1) % 2 ^ 52 = 0 := by omega
    rw [hd, hm, if_neg (Nat.succ_ne_zero _), Nat.add_sub_cancel, Nat.add_zero]
    split_ifs with h
    · rw [h, Nat.pow_zero]; omega
    · obtain ⟨e, he⟩ : ∃ e, m / 2 ^ 52 = e + 1 := ⟨m / 2 ^ 52 - 1, by omega⟩
      have hp : 2 ^ 52 * 2 ^ (e + 1) = 2 ^ 53 * 2 ^ e := by ring
      rw [he, Nat.add_sub_cancel, hp]
      exact Nat.mul_lt_mul_of_pos_right (by omega) (Nat.two_pow_pos _)
  · have hd : (m + 1) / 2 ^ 52 = m / 2 ^ 52 := by omega
    have hm : (m + 1) % 2 ^ 52 = m % 2 ^ 52 + 1 := by omega
    rw [hd, hm]
    split_ifs with h
    · omega
    · exact Nat.mul_lt_mul_of_pos_right (by omega) (Nat.two_pow_pos _)

theorem unitsOf_strictMono : StrictMono unitsOf := strictMono_nat_of_lt_succ unitsOf_lt_succ

@[simp] theorem unitsOf_zero : unitsOf 0 = 0 := by decide

theorem unitsOf_eq_zero_iff {m : Nat} : unitsOf m = 0 ↔ m = 0 := by
  constructor
  · intro h
    exact unitsOf_strictMono.injective (h.trans unitsOf_zero.symm)
  · rintro rfl
    exact unitsOf_zero

/-! ### The fields of `ofMagnitude` -/

theorem bits_ofMagnitude (s : Bool) {m : Nat} (h : m < 2 ^ 63) :
    (ofMagnitude s m).bits.toNat = (if s then 2 ^ 63 else 0) + m := by
  unfold ofMagnitude
  rw [UInt64.toNat_ofNat']
  apply Nat.mod_eq_of_lt
  cases s <;> simp <;> omega

@[simp] theorem magnitude_ofMagnitude (s : Bool) {m : Nat} (h : m < 2 ^ 63) :
    (ofMagnitude s m).magnitude = m := by
  unfold magnitude
  rw [bits_ofMagnitude s h]
  cases s <;> simp <;> omega

@[simp] theorem negative_ofMagnitude (s : Bool) {m : Nat} (h : m < 2 ^ 63) :
    (ofMagnitude s m).negative = s := by
  unfold negative
  rw [bits_ofMagnitude s h]
  cases s
  · simp only [Bool.false_eq_true, if_false, decide_eq_false_iff_not]
    omega
  · simp

theorem ofMagnitude_fields (x : Binary64) : ofMagnitude x.negative x.magnitude = x := by
  obtain ⟨b⟩ := x
  have hb := b.toNat_lt
  unfold ofMagnitude negative magnitude
  congr 1
  apply UInt64.toNat_inj.mp
  rw [UInt64.toNat_ofNat']
  simp only [decide_eq_true_eq]
  split_ifs <;> omega

theorem ext_fields {x y : Binary64} (hs : x.negative = y.negative)
    (hm : x.magnitude = y.magnitude) : x = y := by
  rw [← ofMagnitude_fields x, ← ofMagnitude_fields y, hs, hm]

/-! ### Equality -/

/-- Different bits have the same value in the two zeros only. -/
theorem units_eq_iff {x y : Binary64} :
    x.units = y.units ↔ x = y ∨ (x.magnitude = 0 ∧ y.magnitude = 0) := by
  constructor
  · intro h
    have hmag : x.magnitude = y.magnitude := by
      apply unitsOf_strictMono.injective
      unfold units at h
      split_ifs at h <;> omega
    by_cases h0 : x.magnitude = 0
    · exact Or.inr ⟨h0, hmag ▸ h0⟩
    · refine Or.inl (ext_fields ?_ hmag)
      have hpos : unitsOf y.magnitude ≠ 0 := by
        rw [← hmag]; exact fun hz => h0 (unitsOf_eq_zero_iff.mp hz)
      unfold units at h
      rw [hmag] at h
      cases hx : x.negative <;> cases hy : y.negative <;> simp [hx, hy] at h ⊢ <;> omega
  · rintro (rfl | ⟨hx, hy⟩)
    · rfl
    · simp [units, hx, hy]

theorem units_eq_zero_of_magnitude {x : Binary64} (h : x.magnitude = 0) : x.units = 0 := by
  simp [units, h]

theorem equal_iff {x y : Binary64} :
    x.equal y = true ↔
      x.isNaN = false ∧ y.isNaN = false ∧ (x = y ∨ (x.magnitude = 0 ∧ y.magnitude = 0)) := by
  simp [equal, units_eq_iff, and_assoc]

theorem equal_self {x : Binary64} (h : x.isNaN = false) : x.equal x = true := by
  simp [equal_iff, h]

theorem equal_comm (x y : Binary64) : x.equal y = y.equal x := by
  unfold equal
  rw [Bool.and_comm (!x.isNaN)]
  congr 1
  exact decide_eq_decide.mpr eq_comm

theorem equal_trans {x y z : Binary64} (hxy : x.equal y = true) (hyz : y.equal z = true) :
    x.equal z = true := by
  simp only [equal, Bool.and_eq_true, decide_eq_true_eq] at *
  exact ⟨⟨hxy.1.1, hyz.1.2⟩, hxy.2.trans hyz.2⟩

/-! ### Order -/

end LuaBinaryTable.Binary64
