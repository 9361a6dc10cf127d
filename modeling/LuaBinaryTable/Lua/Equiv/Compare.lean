import LuaBinaryTable.Lua.Compare
import Mathlib.Data.List.Lex

/-!
# Strings are ordered lexicographically

`lStrcmp_eq`: in the C locale `l_strcmp` orders byte strings lexicographically, zero bytes included.
`strcmp` compares up to the first zero byte (`strcmp_cases`), and the loop goes on behind it.
-/

namespace LuaBinaryTable

/-- The bytes as numbers, whose lists Mathlib orders lexicographically. -/
def codes (s : Bytes) : List Nat := s.map UInt8.toNat

theorem codes_injective : Function.Injective codes :=
  List.map_injective_iff.mpr fun _ _ h => UInt8.toNat_inj.mp h

theorem codes_cons (a : UInt8) (s : Bytes) : codes (a :: s) = a.toNat :: codes s := rfl

theorem codes_cons_lt_iff {a b : UInt8} {s t : Bytes} :
    codes (a :: s) < codes (b :: t) ↔ a < b ∨ a = b ∧ codes s < codes t := by
  rw [codes_cons, codes_cons, List.cons_lt_cons_iff, UInt8.lt_iff_toNat_lt, UInt8.toNat_inj]

theorem codes_append_lt_iff (c s t : Bytes) :
    codes (c ++ s) < codes (c ++ t) ↔ codes s < codes t := by
  induction c with
  | nil => rfl
  | cons a c ih =>
    rw [List.cons_append, List.cons_append, codes_cons_lt_iff, ih]
    simp

/-- A byte string that is empty or starts with a zero byte: where a C string ends. -/
def EndsHere (s : Bytes) : Prop := s = [] ∨ ∃ s', s = 0 :: s'

/-- What `strcmp` finds: a difference, or the same bytes up to the end of both C strings. -/
theorem strcmp_cases (l r : Bytes) :
    (strcmp l r = .lt ∧ codes l < codes r) ∨ (strcmp l r = .gt ∧ codes r < codes l) ∨
      (strcmp l r = .eq ∧ ∃ c l' r', l = c ++ l' ∧ r = c ++ r' ∧ strlen l = c.length ∧
        EndsHere l' ∧ EndsHere r') := by
  have hpos : ∀ {x : UInt8}, x ≠ 0 → 0 < x := fun hx => UInt8.pos_iff_ne_zero.mpr hx
  induction l generalizing r with
  | nil =>
    cases r with
    | nil => exact Or.inr (Or.inr ⟨rfl, [], [], [], rfl, rfl, rfl, Or.inl rfl, Or.inl rfl⟩)
    | cons b bs =>
      rw [strcmp]
      split_ifs with hb
      · subst hb
        exact Or.inr (Or.inr ⟨rfl, [], [], 0 :: bs, rfl, rfl, rfl, Or.inl rfl, Or.inr ⟨bs, rfl⟩⟩)
      · exact Or.inl ⟨rfl, List.nil_lt_cons _ _⟩
  | cons a as ih =>
    cases r with
    | nil =>
      rw [strcmp]
      split_ifs with ha
      · subst ha
        exact Or.inr (Or.inr ⟨rfl, [], 0 :: as, [], rfl, rfl, rfl, Or.inr ⟨as, rfl⟩, Or.inl rfl⟩)
      · exact Or.inr (Or.inl ⟨rfl, List.nil_lt_cons _ _⟩)
    | cons b bs =>
      rw [strcmp]
      split_ifs with ha hb hb hlt hgt
      · subst ha
        subst hb
        exact Or.inr (Or.inr
          ⟨rfl, [], 0 :: as, 0 :: bs, rfl, rfl, rfl, Or.inr ⟨as, rfl⟩, Or.inr ⟨bs, rfl⟩⟩)
      · subst ha
        exact Or.inl ⟨rfl, codes_cons_lt_iff.mpr (Or.inl (hpos hb))⟩
      · subst hb
        exact Or.inr (Or.inl ⟨rfl, codes_cons_lt_iff.mpr (Or.inl (hpos ha))⟩)
      · exact Or.inl ⟨rfl, codes_cons_lt_iff.mpr (Or.inl hlt)⟩
      · exact Or.inr (Or.inl ⟨rfl, codes_cons_lt_iff.mpr (Or.inl hgt)⟩)
      · obtain rfl : a = b := by
          rw [UInt8.lt_iff_toNat_lt] at hlt hgt
          exact UInt8.toNat_inj.mp (by omega)
        -- equal bytes: the rest decides, and `a` joins the common part
        rcases ih bs with ⟨h, hl⟩ | ⟨h, hr⟩ | ⟨h, c, l', r', hl, hr, hlen, hl', hr'⟩
        · exact Or.inl ⟨h, codes_cons_lt_iff.mpr (Or.inr ⟨rfl, hl⟩)⟩
        · exact Or.inr (Or.inl ⟨h, codes_cons_lt_iff.mpr (Or.inr ⟨rfl, hr⟩)⟩)
        · refine Or.inr (Or.inr ⟨h, a :: c, l', r', by rw [hl]; rfl, by rw [hr]; rfl, ?_, hl', hr'⟩)
          rw [strlen, List.takeWhile_cons_of_pos (by simpa using ha), List.length_cons,
            List.length_cons, ← hlen, strlen]

/-- The loop of `l_strcmp` compares lexicographically. -/
theorem lStrcmpLoop_eq : ∀ (fuel : Nat) (l r : Bytes), l.length < fuel →
    lStrcmpLoop fuel l r = compareOfLessAndEq (codes l) (codes r)
  | fuel + 1, l, r, hf => by
    rw [lStrcmpLoop]
    rcases strcmp_cases l r with ⟨h, hlt⟩ | ⟨h, hgt⟩ | ⟨h, c, l', r', hl, hr, hlen, hl', hr'⟩
    · rw [h, compareOfLessAndEq, if_pos hlt]
    · simp only [h, compareOfLessAndEq, not_lt.mpr hgt.le, (ne_of_lt hgt).symm, if_false]
    · rw [h]
      subst hl
      subst hr
      -- where only one C string is at the end of its buffer, that one is smaller
      have hnil : ∀ s : Bytes, codes (c ++ []) < codes (c ++ 0 :: s) := fun s =>
        (codes_append_lt_iff c _ _).mpr (List.nil_lt_cons _ _)
      simp only [hlen, List.length_append]
      rcases hl' with rfl | ⟨l'', rfl⟩ <;> rcases hr' with rfl | ⟨r'', rfl⟩
      · simp [compareOfLessAndEq]
      · rw [compareOfLessAndEq, if_pos (hnil r'')]
        simp
      · have hgt := hnil l''
        simp only [compareOfLessAndEq, not_lt.mpr hgt.le, (ne_of_lt hgt).symm, if_false]
        simp
      · -- both go on behind the zero byte
        have hdrop : ∀ s : Bytes, (c ++ 0 :: s).drop (c.length + 1) = s := fun s => by
          rw [← List.drop_drop, List.drop_left, List.drop_one, List.tail_cons]
        have hrec := lStrcmpLoop_eq fuel l'' r'' (by simp at hf; omega)
        have hcmp : compareOfLessAndEq (codes (c ++ 0 :: l'')) (codes (c ++ 0 :: r'')) =
            compareOfLessAndEq (codes l'') (codes r'') := by
          simp only [compareOfLessAndEq, codes_append_lt_iff, codes_cons_lt_iff,
            codes_injective.eq_iff, List.append_cancel_left_eq, List.cons.injEq, true_and,
            UInt8.lt_iff_toNat_lt, Nat.lt_irrefl, false_or]
        rw [hdrop, hdrop, hrec, hcmp]
        simp

/-- `l_strcmp` compares lexicographically. -/
theorem lStrcmp_eq (l r : Bytes) : lStrcmp l r = compareOfLessAndEq (codes l) (codes r) :=
  lStrcmpLoop_eq (l.length + 1) l r (Nat.lt_succ_self _)

theorem lStrcmp_eq_lt_iff {l r : Bytes} : lStrcmp l r = .lt ↔ codes l < codes r := by
  rw [lStrcmp_eq, compareOfLessAndEq]
  split_ifs with h h' <;> simp [h]

end LuaBinaryTable
