import LuaBinaryTable.Lua.Equiv.Compare
import LuaBinaryTable.Writer.Keys
import Mathlib.Data.Sum.Order

/-!
# The order of the keys

`sortComp_iff`: on numbers, strings and booleans the verdict of the comparator is the comparison of
`place`s on a line, numbers before strings and the booleans among the numbers as 0 and 1, except
that nothing is less than `false`: the call of `sortCmp` leaves its second argument as its result.

Where `false` is not compared this is a strict weak order.  With `false` between two different
numbers that are not positive it is none (`sortComp_weakOrder_iff`).
-/

namespace LuaBinaryTable

open LuaValue

/-- The keys that the comparator orders by value: numbers other than `NaN`, strings and booleans. -/
def Orderable : LuaValue → Prop
  | .number x => x.isNaN = false
  | .string _ => True
  | .boolean _ => True
  | _ => False

/-- The place of a key on a line: the numbers and, among them, the booleans, and then the
strings. -/
def place : LuaValue → Lex (Int ⊕ List Nat)
  | .number x => toLex (.inl x.units)
  | .boolean b => toLex (.inl (if b then Binary64.scale else 0))
  | .string s => toLex (.inr (codes s))
  | _ => toLex (.inl 0)

theorem place_boolean (b : Bool) :
    place (.boolean b) = toLex (.inl (if b then (Binary64.scale : Int) else 0)) := rfl

theorem place_string (s : Bytes) : place (.string s) = toLex (.inr (codes s)) := rfl

/-- The comparator puts `a` before `b`. -/
def Precedes (env : Env) (a b : LuaValue) : Prop := sortComp env a b = some true

variable {env : Env}

theorem units_ofInt_bool (b : Bool) :
    (Binary64.ofInt (if b then 1 else 0)).units = if b then (Binary64.scale : Int) else 0 := by
  rw [Binary64.units_ofInt_of_le (by cases b <;> decide)]
  rw [ite_mul, one_mul, zero_mul]

theorem less_iff {x y : Binary64} (hx : x.isNaN = false) (hy : y.isNaN = false) :
    x.less y = true ↔ x.units < y.units := by
  simp only [Binary64.less, hx, hy, Bool.not_false, Bool.true_and, decide_eq_true_eq]

theorem isNaN_ofInt_bool (b : Bool) : (Binary64.ofInt (if b then 1 else 0)).isNaN = false :=
  Binary64.isNaN_ofInt (by cases b <;> decide)

/-- The comparator answers, and what it answers, two booleans aside. -/
theorem sortComp_iff {a b : LuaValue} (ha : Orderable a) (hb : Orderable b)
    (hne : ¬ (a.type = .boolean ∧ b.type = .boolean)) :
    sortComp env a b ≠ none ∧ (Precedes env a b ↔ b ≠ .boolean false ∧ place a < place b) := by
  -- the comparator is the answer of `sortCmp` and the second key, and only `false` is not true
  have htruthy : ∀ (c : Bool) (n : Option Nat), n = some (if c then 1 else 0) →
      (n.map fun n => if n = 0 then false else b.truthy) = some (c && b.truthy) := by
    rintro c n rfl
    cases c <;> rfl
  cases a with
  | number x =>
    cases b with
    | number y =>
      have h : sortComp env (.number x) (.number y) = some (x.less y && true) :=
        htruthy (x.less y) _ (by simp [sortCmp, type, luaLessThan])
      rw [Precedes, h]
      simp [place, less_iff ha hb, Sum.Lex.toLex_lt_toLex]
    | string s =>
      have h : sortComp env (.number x) (.string s) = some true := rfl
      rw [Precedes, h]
      simp [place, Sum.Lex.toLex_lt_toLex]
    | boolean c =>
      have h : sortComp env (.number x) (.boolean c) =
          some (x.less (Binary64.ofInt (if c then 1 else 0)) && c) :=
        htruthy (x.less (Binary64.ofInt (if c then 1 else 0))) _ (by simp [sortCmp, type])
      rw [Precedes, h]
      simp only [place, Sum.Lex.toLex_lt_toLex, Sum.lex_inl_inl, ← units_ofInt_bool]
      rw [← less_iff ha (isNaN_ofInt_bool c)]
      cases c <;> simp
    | _ => exact hb.elim
  | string s =>
    cases b with
    | string t =>
      have h : sortComp env (.string s) (.string t) = some (lStrcmp s t == .lt && true) :=
        htruthy (lStrcmp s t == .lt) _ (by simp [sortCmp, type, luaLessThan])
      rw [Precedes, h]
      simp [place, Sum.Lex.toLex_lt_toLex, lStrcmp_eq_lt_iff]
    | number y =>
      have h : sortComp env (.string s) (.number y) = some false := rfl
      rw [Precedes, h]
      simp [place, Sum.Lex.toLex_lt_toLex]
    | boolean c =>
      have h : sortComp env (.string s) (.boolean c) = some false := rfl
      rw [Precedes, h, place_string, place_boolean, Sum.Lex.toLex_lt_toLex]
      refine ⟨by simp, fun hfalse => ?_, fun hlt => ?_⟩
      · cases hfalse
      · exact absurd hlt.2 Sum.lex_inr_inl
    | _ => exact hb.elim
  | boolean c =>
    cases b with
    | number y =>
      have h : sortComp env (.boolean c) (.number y) =
          some ((Binary64.ofInt (if c then 1 else 0)).less y && true) :=
        htruthy ((Binary64.ofInt (if c then 1 else 0)).less y) _ (by simp [sortCmp, type])
      rw [Precedes, h]
      simp only [place, Sum.Lex.toLex_lt_toLex, Sum.lex_inl_inl, ← units_ofInt_bool]
      rw [← less_iff (isNaN_ofInt_bool c) hb]
      simp
    | string t =>
      have h : sortComp env (.boolean c) (.string t) = some true := rfl
      rw [Precedes, h, place_string, place_boolean, Sum.Lex.toLex_lt_toLex]
      exact ⟨by simp, iff_of_true rfl ⟨by simp, Sum.Lex.sep _ _⟩⟩
    | boolean _ => exact absurd ⟨rfl, rfl⟩ hne
    | _ => exact hb.elim
  | _ => exact ha.elim

/-! ### Numbers and strings -/

/-- Numbers and strings with the same place are the same key. -/
theorem rawEqual_of_place_eq {a b : LuaValue} (ha : Orderable a) (hb : Orderable b)
    (ht : a.type ≠ .boolean) (ht' : b.type ≠ .boolean) (h : place a = place b) :
    a.rawEqual b = true := by
  cases a with
  | number x =>
    cases b with
    | number y =>
      have hx : x.isNaN = false := ha
      have hy : y.isNaN = false := hb
      have hunits : x.units = y.units := Sum.inl_injective (toLex_inj.mp h)
      rw [rawEqual_number, Binary64.equal, hx, hy, hunits]
      simp
    | string t => cases toLex_inj.mp h
    | boolean c => exact absurd rfl ht'
    | _ => exact hb.elim
  | string s =>
    cases b with
    | string t =>
      rw [codes_injective (Sum.inr_injective (toLex_inj.mp h))]
      exact rawEqual_self rfl
    | number y => cases toLex_inj.mp h
    | boolean c => exact absurd rfl ht'
    | _ => exact hb.elim
  | boolean b => exact absurd rfl ht
  | _ => exact ha.elim

/-- On different keys that are numbers or strings the comparator is a strict total order. -/
theorem strictTotal_of_keys {ks : List LuaValue}
    (hks : ∀ k ∈ ks, Orderable k ∧ k.type ≠ .boolean)
    (hd : ks.Pairwise fun a b => a.rawEqual b = false) :
    Sorter.StrictTotal (sortComp env) ks := by
  -- without booleans the comparator compares places
  have hcmp : ∀ a ∈ ks, ∀ b ∈ ks, sortComp env a b ≠ none ∧
      (sortComp env a b = some true ↔ place a < place b) := by
    intro a ha b hb
    obtain ⟨h1, h2⟩ := @sortComp_iff env _ _ (hks a ha).1 (hks b hb).1
      fun h => (hks a ha).2 h.1
    refine ⟨h1, h2.trans (and_iff_right ?_)⟩
    rintro rfl
    exact (hks _ hb).2 rfl
  constructor
  · exact fun a ha b hb => (hcmp a ha b hb).1
  · intro a ha b hb hab hba
    exact lt_asymm ((hcmp a ha b hb).2.mp hab) ((hcmp b hb a ha).2.mp hba)
  · intro a ha b hb c hc hab hbc
    exact (hcmp a ha c hc).2.mpr
      (((hcmp a ha b hb).2.mp hab).trans ((hcmp b hb c hc).2.mp hbc))
  · refine hd.imp_of_mem fun {a b} ha hb hne => ?_
    rcases lt_trichotomy (place a) (place b) with hlt | heq | hgt
    · exact Or.inl ((hcmp a ha b hb).2.mpr hlt)
    · rw [rawEqual_of_place_eq (hks a ha).1 (hks b hb).1 (hks a ha).2 (hks b hb).2 heq] at hne
      cases hne
    · exact Or.inr ((hcmp b hb a ha).2.mpr hgt)

/-! ### Strict weak orders -/

/-- Neither of two keys comes before the other. -/
def Ties (env : Env) (a b : LuaValue) : Prop := ¬ Precedes env a b ∧ ¬ Precedes env b a

/-- The comparator answers on three keys, and behaves on them as a strict weak order.  A boolean is
not compared with itself. -/
structure WeakOrderAt (env : Env) (a b c : LuaValue) : Prop where
  answers : sortComp env a b ≠ none
  irrefl : a.type ≠ .boolean → ¬ Precedes env a a
  asymm : Precedes env a b → ¬ Precedes env b a
  trans : Precedes env a b → Precedes env b c → Precedes env a c
  ties_trans : Ties env a b → Ties env b c → Ties env a c

/-- At most one of three keys is a boolean. -/
def OneBoolean (a b c : LuaValue) : Prop :=
  ¬ (a.type = .boolean ∧ b.type = .boolean) ∧ ¬ (b.type = .boolean ∧ c.type = .boolean) ∧
    ¬ (a.type = .boolean ∧ c.type = .boolean)

/-- The keys are `false` between two different numbers that are not positive. -/
def FalseBetween (a b c : LuaValue) : Prop :=
  b = .boolean false ∧ ∃ x y, a = .number x ∧ c = .number y ∧ x.units ≤ 0 ∧ y.units ≤ 0 ∧
    x.equal y = false

theorem ties_iff {a b : LuaValue} (ha : Orderable a) (hb : Orderable b)
    (hne : ¬ (a.type = .boolean ∧ b.type = .boolean)) :
    Ties env a b ↔ (b = .boolean false ∨ place b ≤ place a) ∧
      (a = .boolean false ∨ place a ≤ place b) := by
  rw [Ties, (sortComp_iff ha hb hne).2, (sortComp_iff hb ha fun h => hne ⟨h.2, h.1⟩).2]
  simp only [not_and, not_lt, ← or_iff_not_imp_left]

/-- What is tied with `false` is a number that is not positive. -/
theorem exists_of_place_le {a : LuaValue} (ha : Orderable a) (hb : a.type ≠ .boolean)
    (h : place a ≤ place (.boolean false)) : ∃ x, a = .number x ∧ x.units ≤ 0 ∧ x.isNaN = false := by
  cases a with
  | number x => exact ⟨x, rfl, by simpa [place, Sum.Lex.toLex_le_toLex] using h, ha⟩
  | string s => simp [place, Sum.Lex.toLex_le_toLex] at h
  | boolean _ => exact absurd rfl hb
  | _ => exact ha.elim

/-- The comparator is a strict weak order on three keys exactly where they are not `false` between
two different numbers that are not positive. -/
theorem sortComp_weakOrder_iff (env : Env) {a b c : LuaValue} (ha : Orderable a) (hb : Orderable b)
    (hc : Orderable c) (hone : OneBoolean a b c) :
    WeakOrderAt env a b c ↔ ¬ FalseBetween a b c := by
  obtain ⟨hab, hbc, hac⟩ := hone
  have hba : ¬ (b.type = .boolean ∧ a.type = .boolean) := fun h => hab ⟨h.2, h.1⟩
  have htab : Ties env a b ↔ _ := ties_iff ha hb hab
  have htbc : Ties env b c ↔ _ := ties_iff hb hc hbc
  have htac : Ties env a c ↔ _ := ties_iff ha hc hac
  constructor
  · -- the two numbers are tied with `false`, but not with each other
    rintro hw ⟨rfl, x, y, rfl, rfl, hx, hy, hxy⟩
    have hx0 : place (.number x) ≤ place (.boolean false) := by
      simpa [place, Sum.Lex.toLex_le_toLex] using hx
    have hy0 : place (.number y) ≤ place (.boolean false) := by
      simpa [place, Sum.Lex.toLex_le_toLex] using hy
    have ht := htac.mp (hw.ties_trans (htab.mpr ⟨Or.inl rfl, Or.inr hx0⟩)
      (htbc.mpr ⟨Or.inr hy0, Or.inl rfl⟩))
    simp only [place, Sum.Lex.toLex_le_toLex, Sum.lex_inl_inl, reduceCtorEq, false_or] at ht
    have hne : x.isNaN = false := ha
    have hne' : y.isNaN = false := hc
    simp only [Binary64.equal, hne, hne', Bool.not_false, Bool.true_and, decide_eq_false_iff_not]
      at hxy
    omega
  · intro hf
    -- each law follows from the order of the places; only ties have to do with `false`
    refine ⟨(sortComp_iff ha hb hab).1, fun hnb hp => ?_, fun h h' => ?_, fun h h' => ?_,
      fun h h' => ?_⟩
    · exact lt_irrefl _ ((sortComp_iff ha ha fun h => hnb h.1).2.mp hp).2
    · exact lt_asymm ((sortComp_iff ha hb hab).2.mp h).2 ((sortComp_iff hb ha hba).2.mp h').2
    · obtain ⟨_, h1⟩ := (sortComp_iff ha hb hab).2.mp h
      obtain ⟨hcf, h2⟩ := (sortComp_iff hb hc hbc).2.mp h'
      exact (sortComp_iff ha hc hac).2.mpr ⟨hcf, h1.trans h2⟩
    · rw [htab] at h
      rw [htbc] at h'
      rw [htac]
      obtain ⟨h1, h2⟩ := h
      obtain ⟨h3, h4⟩ := h'
      by_cases hbf : b = .boolean false
      · -- both others are tied with `false`, so they are numbers, and equal
        subst hbf
        have hat : a.type ≠ .boolean := fun h => hab ⟨h, rfl⟩
        have hct : c.type ≠ .boolean := fun h => hbc ⟨rfl, h⟩
        have hle := h2.resolve_left fun h => hat (by rw [h]; rfl)
        have hle' := h3.resolve_left fun h => hct (by rw [h]; rfl)
        obtain ⟨x, rfl, hx, hxn⟩ := exists_of_place_le ha hat hle
        obtain ⟨y, rfl, hy, hyn⟩ := exists_of_place_le hc hct hle'
        have heq : x.equal y = true := by
          by_contra hne
          exact hf ⟨rfl, x, y, rfl, rfl, hx, hy, Bool.eq_false_of_not_eq_true hne⟩
        simp only [Binary64.equal, hxn, hyn, Bool.not_false, Bool.true_and, decide_eq_true_eq] at heq
        simp only [place, heq, le_refl, or_true, and_self]
      · have hba' := h1.resolve_left hbf
        have hbc' := h4.resolve_left hbf
        exact ⟨h3.imp_right fun h => h.trans hba', h2.imp_right fun h => h.trans hbc'⟩

/-- `false` lies between the numbers -1 and -2, and is tied with both. -/
theorem sortComp_false_between :
    ¬ WeakOrderAt .plain (integer (-1)) (.boolean false) (integer (-2)) := by
  intro h
  have ht := h.ties_trans ⟨by unfold Precedes; decide +kernel, by unfold Precedes; decide +kernel⟩
    ⟨by unfold Precedes; decide +kernel, by unfold Precedes; decide +kernel⟩
  exact ht.2 (by unfold Precedes; decide +kernel)

/-- A number, a boolean and a string. -/
theorem sortComp_weakOrder_mixed :
    WeakOrderAt .plain (integer (-1)) (.boolean true) (.string (bytesOf "a")) :=
  (@sortComp_weakOrder_iff .plain (integer (-1)) (.boolean true) (.string (bytesOf "a"))
    (by unfold Orderable integer; decide +kernel) trivial trivial
    ⟨by decide, by decide, by decide⟩).mpr fun h => by cases h.1

end LuaBinaryTable
