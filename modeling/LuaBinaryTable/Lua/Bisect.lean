import Mathlib.Algebra.Group.Nat.Defs
import Mathlib.Order.Basic
import Mathlib.Tactic.Common

/-!
# The search for a boundary

A boundary of a set of positive integers lies between one that is in it, or zero, and one that is
not.  `bisect` narrows an interval down to one, and `unboundSearch` looks for an interval first, by
doubling its end.  Both compute with unsigned integers of 32 bits.
-/

namespace LuaBinaryTable

/-- The greatest index that the doubling goes to. -/
def maxInt : Nat := 2 ^ 31 - 3

variable (absent : Nat → Bool)

/-- The loop `while (j - i > 1)`. -/
def bisect : Nat → Nat → Nat → Option Nat
  | 0, _, _ => none
  | fuel + 1, i, j =>
    if 1 < (j + 2 ^ 32 - i) % 2 ^ 32 then
      let m := (i + j) % 2 ^ 32 / 2
      if absent m then bisect fuel i m else bisect fuel m j
    else some i

/-- The linear search, from `i` on. -/
def scan : Nat → Nat → Option Nat
  | 0, _ => none
  | fuel + 1, i => if absent i then some (i - 1) else scan fuel ((i + 1) % 2 ^ 32)

/-- The doubling of `j`, at most `n` times. -/
def widen (fuel : Nat) : Nat → Nat → Nat → Option Nat
  | 0, _, _ => none
  | n + 1, i, j =>
    if absent j then bisect absent fuel i j
    else if maxInt < 2 * j % 2 ^ 32 then scan absent fuel 1
    else widen fuel n j (2 * j % 2 ^ 32)

/-- `unbound_search` of ltable.c, from an index that is zero or present. -/
def unboundSearch (fuel j : Nat) : Option Nat := widen absent fuel fuel j ((j + 1) % 2 ^ 32)

variable {absent}

/-- A boundary. -/
def Boundary (absent : Nat → Bool) (b : Nat) : Prop :=
  (b ≠ 0 → absent b = false) ∧ absent (b + 1) = true

theorem bisect_done {fuel i j : Nat} (hij : j = i + 1) :
    bisect absent (fuel + 1) i j = some i := by
  have hsub : (j + 2 ^ 32 - i) % 2 ^ 32 = 1 := by omega
  rw [bisect, hsub, if_neg (Nat.lt_irrefl 1)]

theorem bisect_step {fuel i j : Nat} (hij : 1 < j - i) (hj : j < 2 ^ 31) :
    bisect absent (fuel + 1) i j = if absent ((i + j) / 2) then bisect absent fuel i ((i + j) / 2)
      else bisect absent fuel ((i + j) / 2) j := by
  have hsub : (j + 2 ^ 32 - i) % 2 ^ 32 = j - i := by omega
  have hmod : (i + j) % 2 ^ 32 = i + j := by omega
  rw [bisect, hsub, hmod, if_pos hij]

/-- The interval is halved until a boundary is left. -/
theorem bisect_spec : ∀ {fuel i j : Nat}, j - i ≤ 2 ^ fuel → i < j → j < 2 ^ 31 →
    (i ≠ 0 → absent i = false) → absent j = true →
    ∃ b, bisect absent (fuel + 1) i j = some b ∧ b < j ∧ Boundary absent b := by
  intro fuel
  induction fuel with
  | zero =>
    intro i j hlen hlt hj hi habsent
    rw [Nat.pow_zero] at hlen
    have hone : j = i + 1 := by omega
    subst hone
    exact ⟨i, bisect_done rfl, hlt, hi, habsent⟩
  | succ fuel ih =>
    intro i j hlen hlt hj hi habsent
    by_cases hone : 1 < j - i
    · rw [bisect_step hone hj]
      rw [Nat.pow_succ] at hlen
      -- the half that is kept has an absent upper end and a present lower one
      cases hm : absent ((i + j) / 2) with
      | true =>
        rw [if_pos rfl]
        have hleft : (i + j) / 2 - i ≤ 2 ^ fuel := by omega
        obtain ⟨b, hb, hbm, hbound⟩ := ih hleft (by omega) (by omega) hi hm
        exact ⟨b, hb, by omega, hbound⟩
      | false =>
        rw [if_neg Bool.false_ne_true]
        have hright : j - (i + j) / 2 ≤ 2 ^ fuel := by omega
        exact ih hright (by omega) hj (fun _ => hm) habsent
    · have heq : j = i + 1 := by omega
      subst heq
      exact ⟨i, bisect_done rfl, hlt, hi, habsent⟩

/-- The linear search ends at the first index that is absent. -/
theorem scan_spec : ∀ {fuel i k : Nat}, k - i < fuel → 0 < i → i ≤ k → k < 2 ^ 31 →
    (i ≠ 1 → absent (i - 1) = false) → absent k = true →
    ∃ b, scan absent fuel i = some b ∧ b < k ∧ Boundary absent b
  | fuel + 1, i, k, hfuel, hpos, hik, hk, hbefore, habsent => by
    rw [scan]
    cases hi : absent i with
    | true =>
      rw [if_pos rfl]
      refine ⟨i - 1, rfl, by omega, fun hne => hbefore (by omega), ?_⟩
      rwa [Nat.sub_add_cancel hpos]
    | false =>
      rw [if_neg Bool.false_ne_true]
      have hne : i ≠ k := by
        rintro rfl
        rw [hi] at habsent
        cases habsent
      rw [Nat.mod_eq_of_lt (show i + 1 < 2 ^ 32 by omega)]
      exact scan_spec (by omega) (by omega) (by omega) hk (fun _ => hi) habsent

theorem bisect_within {fuel i j : Nat} (hpow : 32 ≤ fuel) (hij : i < j) (hj : j < 2 ^ 31)
    (hi : i ≠ 0 → absent i = false) (hj' : absent j = true) :
    ∃ b, bisect absent fuel i j = some b ∧ b + 1 < 2 ^ 31 ∧ Boundary absent b := by
  obtain ⟨m, rfl⟩ : ∃ m, fuel = m + 1 := ⟨fuel - 1, by omega⟩
  have hle : j - i ≤ 2 ^ m := by
    have h31 : 2 ^ 31 ≤ 2 ^ m := Nat.pow_le_pow_right (by decide) (by omega)
    omega
  obtain ⟨b, hb, hlt, hbound⟩ := bisect_spec hle hij hj hi hj'
  exact ⟨b, hb, by omega, hbound⟩

/-- The last turn of the doubling: beyond `maxInt` the search is linear. -/
theorem widen_last {fuel k : Nat} (hfuel : k < fuel) (hpow : 32 ≤ fuel) (hpos : 0 < k)
    (hk : k < 2 ^ 31) (habsent : absent k = true) {n i j : Nat} (hmax : maxInt < 2 * j)
    (hij : i < j) (hj : j < 2 ^ 31) (hi : i ≠ 0 → absent i = false) :
    ∃ b, widen absent fuel (n + 1) i j = some b ∧ b + 1 < 2 ^ 31 ∧ Boundary absent b := by
  have hmod : 2 * j % 2 ^ 32 = 2 * j := by omega
  rw [widen]
  cases hj' : absent j with
  | true =>
    rw [if_pos rfl]
    exact bisect_within hpow hij hj hi hj'
  | false =>
    rw [if_neg Bool.false_ne_true, hmod, if_pos hmax]
    obtain ⟨b, hb, hlt, hbound⟩ := @scan_spec _ fuel 1 k (by omega) Nat.one_pos hpos hk
      (fun h => absurd rfl h) habsent
    exact ⟨b, hb, by omega, hbound⟩

/-- The doubling ends, since each turn leaves less room below `maxInt`. -/
theorem widen_spec {fuel k : Nat} (hfuel : k < fuel) (hpow : 32 ≤ fuel) (hpos : 0 < k)
    (hk : k < 2 ^ 31) (habsent : absent k = true) : ∀ {n i j : Nat}, maxInt < 2 * j * 2 ^ n → i < j →
      j < 2 ^ 31 → (i ≠ 0 → absent i = false) →
      ∃ b, widen absent fuel (n + 1) i j = some b ∧ b + 1 < 2 ^ 31 ∧ Boundary absent b := by
  intro n
  induction n with
  | zero =>
    intro i j hn hij hj hi
    rw [Nat.pow_zero, Nat.mul_one] at hn
    exact widen_last hfuel hpow hpos hk habsent hn hij hj hi
  | succ n ih =>
    intro i j hn hij hj hi
    -- past `maxInt` the source gives up doubling and scans from 1
    by_cases hmax : maxInt < 2 * j
    · exact widen_last hfuel hpow hpos hk habsent hmax hij hj hi
    have hmod : 2 * j % 2 ^ 32 = 2 * j := by omega
    rw [widen]
    cases hj' : absent j with
    | true =>
      rw [if_pos rfl]
      exact bisect_within hpow hij hj hi hj'
    | false =>
      rw [if_neg Bool.false_ne_true, hmod, if_neg hmax]
      refine ih ?_ (by omega) (by unfold maxInt at hmax; omega) fun _ => hj'
      rwa [Nat.pow_succ', ← Nat.mul_assoc, Nat.mul_comm (2 * j) 2] at hn

/-- The search finds a boundary where there is an index `k` that is absent. -/
theorem unboundSearch_spec {fuel j k : Nat} (hfuel : k < fuel) (hpow : 32 ≤ fuel) (hpos : 0 < k)
    (hk : k < 2 ^ 31) (habsent : absent k = true) (hj : j + 1 < 2 ^ 31)
    (hpresent : j ≠ 0 → absent j = false) :
    ∃ b, unboundSearch absent fuel j = some b ∧ b + 1 < 2 ^ 31 ∧ Boundary absent b := by
  obtain ⟨n, rfl⟩ : ∃ n, fuel = n + 1 := ⟨fuel - 1, by omega⟩
  have hmod : (j + 1) % 2 ^ 32 = j + 1 := by omega
  have hn : maxInt < 2 * (j + 1) * 2 ^ n := by
    have h31 : 2 ^ 31 ≤ 2 ^ n := Nat.pow_le_pow_right (by decide) (by omega)
    have hle : 2 ^ n ≤ 2 * (j + 1) * 2 ^ n := Nat.le_mul_of_pos_left _ (by omega)
    unfold maxInt
    omega
  rw [unboundSearch, hmod]
  exact widen_spec hfuel hpow hpos hk habsent hn (Nat.lt_succ_self j) hj hpresent

/-! ### More fuel -/

/-- A search that has ended ends the same with more fuel. -/
theorem bisect_mono : ∀ {fuel fuel' i j b : Nat}, bisect absent fuel i j = some b → fuel ≤ fuel' →
    bisect absent fuel' i j = some b
  | fuel + 1, fuel' + 1, i, j, b, h, hle => by
    rw [bisect] at h ⊢
    by_cases hlt : 1 < (j + 2 ^ 32 - i) % 2 ^ 32
    · rw [if_pos hlt] at h ⊢
      dsimp only at h ⊢
      cases hm : absent ((i + j) % 2 ^ 32 / 2) with
      | true =>
        rw [hm, if_pos rfl] at h
        rw [if_pos rfl]
        exact bisect_mono h (Nat.le_of_succ_le_succ hle)
      | false =>
        rw [hm, if_neg Bool.false_ne_true] at h
        rw [if_neg Bool.false_ne_true]
        exact bisect_mono h (Nat.le_of_succ_le_succ hle)
    · rw [if_neg hlt] at h ⊢
      exact h

theorem scan_mono : ∀ {fuel fuel' i b : Nat}, scan absent fuel i = some b → fuel ≤ fuel' →
    scan absent fuel' i = some b
  | fuel + 1, fuel' + 1, i, b, h, hle => by
    rw [scan] at h ⊢
    cases hi : absent i with
    | true =>
      rw [hi, if_pos rfl] at h
      rw [if_pos rfl]
      exact h
    | false =>
      rw [hi, if_neg Bool.false_ne_true] at h
      rw [if_neg Bool.false_ne_true]
      exact scan_mono h (Nat.le_of_succ_le_succ hle)

/-- The same for the doubling and the searches that it ends in. -/
theorem widen_mono {fuel fuel' : Nat} (hle : fuel ≤ fuel') : ∀ {n n' i j b : Nat},
    widen absent fuel n i j = some b → n ≤ n' → widen absent fuel' n' i j = some b
  | n + 1, n' + 1, i, j, b, h, hn => by
    rw [widen] at h ⊢
    cases hj : absent j with
    | true =>
      rw [hj, if_pos rfl] at h
      rw [if_pos rfl]
      exact bisect_mono h hle
    | false =>
      rw [hj, if_neg Bool.false_ne_true] at h
      rw [if_neg Bool.false_ne_true]
      by_cases hmax : maxInt < 2 * j % 2 ^ 32
      · rw [if_pos hmax] at h ⊢
        exact scan_mono h hle
      · rw [if_neg hmax] at h ⊢
        exact widen_mono hle h (Nat.le_of_succ_le_succ hn)

/-- The loops do not depend on the fuel that is left. -/
theorem unboundSearch_mono {fuel fuel' j b : Nat} (h : unboundSearch absent fuel j = some b)
    (hle : fuel ≤ fuel') : unboundSearch absent fuel' j = some b :=
  widen_mono hle h hle

end LuaBinaryTable
