import LuaBinaryTable.Document.Portable
import LuaBinaryTable.Sorting.Equiv.Auxsort
import LuaBinaryTable.Writer.Equiv.Keys

/-!
# `table.sort` on a table

`sort` of `ltablib.c` on a Lua table: `auxsort` through `lua_rawgeti` and `lua_rawseti`.  Under an
asymmetric comparator the table stays an array of the same elements.

`bundledSort` is this sort as a `Sorter`, the form in which the writer takes `table.sort`.  Under
an asymmetric comparator it does what `auxsort` does on the table (`bundledSort_run`) and has the
properties of a library sort (`bundledSort_lawful`).  A comparator that is not may lead `auxsort`
out of the array, or make it raise an error of its own.
-/

namespace LuaBinaryTable

open LuaValue LuaState

namespace LuaTable

/-- `lua_rawgeti` and `lua_rawseti`. -/
def cells : Cells LuaTable LuaValue where
  get t i := t.get (integer i)
  set t i v := t.set (integer i) v

/-- The table is an array of the elements of `xs` in some order. -/
structure IsArrayOf (xs : List LuaValue) (t : LuaTable) : Prop where
  elements : ∃ ys, t.entries = arrayEntries 1 ys ∧ ys.Perm xs
  border_eq : t.border = t.entries.findBorder

variable {t : LuaTable} {xs ys : List LuaValue}

theorem border_set (k v : LuaValue) (hb : t.border = t.entries.findBorder) :
    (t.set k v).border = (t.set k v).entries.findBorder := by
  unfold set
  split_ifs
  · rfl
  · exact hb

theorem get_integer_getElem (h : t.entries = arrayEntries 1 ys) {a : Nat} (ha : a < ys.length) :
    t.get (integer ↑(a + 1)) = ys[a] := by
  have hlt := length_lt_of_entries h
  rw [get_integer h (by omega), List.getElem?_eq_getElem ha, Option.getD_some]

theorem entries_set_getElem (h : t.entries = arrayEntries 1 ys) {a : Nat} (ha : a < ys.length)
    {v : LuaValue} (hv : v ≠ .nil) :
    (t.set (integer ↑(a + 1)) v).entries = arrayEntries 1 (ys.set a v) := by
  have hsplit : ys = ys.take a ++ ys[a] :: ys.drop (a + 1) := by
    rw [List.getElem_cons_drop, List.take_append_drop]
  have hlen : (ys.take a).length = a := by rw [List.length_take, Nat.min_eq_left ha.le]
  rw [hsplit] at h
  have hset := entries_set_integer h hv
  rw [hlen] at hset
  rw [hset, List.set_eq_take_append_cons_drop, if_pos ha]

/-- The elements of an array from an index on. -/
theorem elements_of_entries (h : t.entries = arrayEntries 1 ys) : ∀ n i, i + n ≤ ys.length →
    t.elements (i + 1) n = (ys.drop i).take n
  | 0, i, _ => by rw [elements, List.take_zero]
  | n + 1, i, hle => by
    have hi : i < ys.length := by omega
    rw [elements, get_integer_getElem h hi, elements_of_entries h n (i + 1) (by omega),
      List.drop_eq_getElem_cons hi, List.take_succ_cons]

theorem elements_eq (h : t.entries = arrayEntries 1 ys) : t.elements 1 ys.length = ys := by
  rw [elements_of_entries h ys.length 0 (by omega), List.drop_zero, List.take_length]

/-- Exchanging two elements of an array. -/
theorem IsArrayOf.swap (hx : ∀ x ∈ xs, x ≠ .nil) (ht : t.IsArrayOf xs) {i j : Int}
    (hi : 1 ≤ i ∧ i ≤ xs.length) (hj : 1 ≤ j ∧ j ≤ xs.length) :
    (cells.swap i j t).IsArrayOf xs ∧ ∀ k : Int, 1 ≤ k → k ≤ xs.length →
      cells.get (cells.swap i j t) k = cells.get t (Equiv.swap i j k) := by
  obtain ⟨⟨ys, hes, hperm⟩, hb⟩ := ht
  have hlen := hperm.length_eq
  obtain ⟨a, rfl⟩ : ∃ a : Nat, i = ↑(a + 1) := ⟨(i - 1).toNat, by omega⟩
  obtain ⟨b, rfl⟩ : ∃ b : Nat, j = ↑(b + 1) := ⟨(j - 1).toNat, by omega⟩
  have ha : a < ys.length := by omega
  have hb' : b < ys.length := by omega
  have hy : ∀ y ∈ ys, y ≠ .nil := fun y hm => hx y (hperm.subset hm)
  have hset := entries_set_getElem hes ha (hy _ (List.getElem_mem hb'))
  have hset' := entries_set_getElem hset (a := b) (by simpa using hb') (hy _ (List.getElem_mem ha))
  -- two stores: the second reads what was there before the first
  have hswap : cells.swap ↑(a + 1) ↑(b + 1) t =
      (t.set (integer ↑(a + 1)) ys[b]).set (integer ↑(b + 1)) ys[a] := by
    simp only [Cells.swap, cells, get_integer_getElem hes ha, get_integer_getElem hes hb']
  rw [hswap]
  refine ⟨⟨⟨_, hset', (List.set_set_perm ha hb').trans hperm⟩, border_set _ _ (border_set _ _ hb)⟩,
    fun k hk1 hkn => ?_⟩
  obtain ⟨m, rfl⟩ : ∃ m : Nat, k = ↑(m + 1) := ⟨(k - 1).toNat, by omega⟩
  have hm : m < ys.length := by omega
  have hget := get_integer_getElem hset' (a := m) (by simpa using hm)
  simp only [cells, hget, List.getElem_set]
  split_ifs with hmb hma
  · subst hmb
    rw [Equiv.swap_apply_right, get_integer_getElem hes ha]
  · subst hma
    rw [Equiv.swap_apply_left, get_integer_getElem hes hb']
  · rw [Equiv.swap_apply_of_ne_of_ne (by omega) (by omega), get_integer_getElem hes hm]

theorem lawful_cells (hx : ∀ x ∈ xs, x ≠ .nil) :
    cells.Lawful xs.length (IsArrayOf xs) (· ∈ xs) where
  elem := by
    rintro t k ⟨⟨ys, hes, hperm⟩, _⟩ h1 hn
    obtain ⟨m, rfl⟩ : ∃ m : Nat, k = ↑(m + 1) := ⟨(k - 1).toNat, by omega⟩
    have hm : m < ys.length := by
      have := hperm.length_eq
      omega
    simp only [cells, get_integer_getElem hes hm]
    exact hperm.subset (List.getElem_mem hm)
  valid_swap hs hi hi' hj hj' := (hs.swap hx ⟨hi, hi'⟩ ⟨hj, hj'⟩).1
  get_swap hs hi hi' hj hj' hk hk' := (hs.swap hx ⟨hi, hi'⟩ ⟨hj, hj'⟩).2 _ hk hk'

theorem border_setContents : ∀ (vs : List LuaValue) (i : Nat) (t : LuaTable),
    t.border = t.entries.findBorder →
      (setContents t i vs).border = (setContents t i vs).entries.findBorder
  | [], _, _, hb => hb
  | v :: vs, i, _, hb => border_setContents vs (i + 1) _ (border_set _ v hb)

end LuaTable

/-! ### The array of keys -/

variable {xs : List LuaValue}

/-- The lists that a Lua array can hold. -/
def IsStorable (xs : List LuaValue) : Prop := (∀ x ∈ xs, x ≠ .nil) ∧ xs.length < 2 ^ 31

instance (xs : List LuaValue) : Decidable (IsStorable xs) := inferInstanceAs (Decidable (_ ∧ _))

theorem entries_keyArray_of_storable (hx : IsStorable xs) :
    (keyArray xs).entries = arrayEntries 1 xs :=
  @LuaTable.entries_setContents_append [] _ LuaTable.empty rfl hx.1 (by simpa using hx.2)

theorem isArrayOf_keyArray (hx : IsStorable xs) : (keyArray xs).IsArrayOf xs :=
  ⟨⟨xs, entries_keyArray_of_storable hx, .refl xs⟩,
    LuaTable.border_setContents xs 1 LuaTable.empty rfl⟩

/-- An array of the elements of `xs` is the array of keys with its elements stored over. -/
theorem eq_setContents_of_isArrayOf (hx : IsStorable xs) {t : LuaTable} (ht : t.IsArrayOf xs) :
    (t.elements 1 xs.length).Perm xs ∧
      t = setContents (keyArray xs) 1 (t.elements 1 xs.length) := by
  obtain ⟨⟨ys, hes, hperm⟩, hb⟩ := ht
  rw [← hperm.length_eq, LuaTable.elements_eq hes]
  have hentries : (setContents (keyArray xs) 1 ys).entries = arrayEntries 1 ys :=
    @LuaTable.entries_setContents_replace [] _ _ _ (entries_keyArray_of_storable hx)
      hperm.length_eq.symm fun y hy => hx.1 y (hperm.subset hy)
  refine ⟨hperm, LuaTable.ext_fields (hes.trans hentries.symm) ?_⟩
  rw [hb, LuaTable.border_setContents _ _ _ (isArrayOf_keyArray hx).border_eq, hentries, hes]

/-! ### The sort -/

/-- `table.sort` of an array of the elements. -/
def sortArray (xs : List LuaValue) : CellSort LuaTable LuaValue :=
  tableSort LuaTable.cells 31 xs.length (keyArray xs)

/-- `table.sort` of the bundled Lua as a `Sorter`.  Lists that no Lua array holds are sorted in
another way. -/
def bundledSort : Sorter LuaValue := fun xs =>
  if IsStorable xs then (sortArray xs).program (·.elements 1 xs.length) xs else insertionSort xs

variable {cmp : LuaValue → LuaValue → Option Bool}

/-- The sort keeps the elements and ends, and its calls nest no deeper than 31. -/
theorem ends_sortArray (hx : IsStorable xs) (hasymm : Asymmetric cmp (· ∈ xs)) :
    (sortArray xs).Ends cmp (LuaTable.IsArrayOf xs) (· ∈ xs) fun t => t.IsArrayOf xs ∧
      (Transitive cmp (· ∈ xs) → SortedOn LuaTable.cells cmp 1 xs.length t) :=
  (ends_tableSort (LuaTable.lawful_cells hx.1) hasymm rfl (by decide) hx.2
    (isArrayOf_keyArray hx)).imp (fun _ h => h) fun _ h => ⟨h.1, h.2.2⟩

/-- Under an asymmetric comparator the program ends as the sort does on the table. -/
theorem bundledSort_run (hx : IsStorable xs) (hasymm : Asymmetric cmp (· ∈ xs)) :
    ∃ t, t.IsArrayOf xs ∧
      (((sortArray xs).run cmp = .done t ∧ (bundledSort xs).run cmp = .ok (t.elements 1 xs.length) ∧
          (Transitive cmp (· ∈ xs) → SortedOn LuaTable.cells cmp 1 xs.length t)) ∨
        ((sortArray xs).run cmp = .raised t ∧
          (bundledSort xs).run cmp = .error (t.elements 1 xs.length) ∧
          ∃ x y, x ∈ xs ∧ y ∈ xs ∧ SortProgram.Asks cmp x y (bundledSort xs) ∧
            cmp x y = none)) := by
  have hprogram : bundledSort xs = (sortArray xs).program (·.elements 1 xs.length) xs := if_pos hx
  rw [hprogram]
  rcases CellSort.Ends.run_program
    (fun t ht => (eq_setContents_of_isArrayOf hx ht).1) (ends_sortArray hx hasymm) with
    ⟨t, hr, ht, hsorted, hp⟩ | ⟨t, hr, ht, hnone, hp⟩
  · exact ⟨t, ht, Or.inl ⟨hr, hp, hsorted⟩⟩
  · exact ⟨t, ht, Or.inr ⟨hr, hp, hnone⟩⟩

/-- The sort of two elements starts with the comparison of its ends. -/
theorem exists_sortArray_pair {x y : LuaValue} (hx : IsStorable [x, y]) :
    ∃ next, sortArray [x, y] = .compare (keyArray [x, y]) y x next := by
  have hes := entries_keyArray_of_storable hx
  have h1 : (keyArray [x, y]).get (integer 1) = x :=
    LuaTable.get_integer_getElem hes (a := 0) (by simp)
  have h2 : (keyArray [x, y]).get (integer 2) = y :=
    LuaTable.get_integer_getElem hes (a := 1) (by simp)
  have hlen : (([x, y].length : Nat) : Int) = 2 := rfl
  rw [sortArray, tableSort, hlen, auxsort, auxsortLoop, if_pos (by decide), orderEnds]
  simp only [LuaTable.cells, h1, h2]
  exact ⟨_, rfl⟩

/-- The sort of two elements compares them. -/
theorem asks_bundledSort_pair {x y : LuaValue} (hx : IsStorable [x, y]) :
    SortProgram.Asks cmp y x (bundledSort [x, y]) := by
  obtain ⟨next, hnext⟩ := exists_sortArray_pair hx
  rw [bundledSort, if_pos hx, hnext, CellSort.program]
  exact .here _ _

/-- Under a strict total order not to come after is transitive. -/
theorem transitive_of_strictTotal (ht : Sorter.StrictTotal cmp xs) : Transitive cmp (· ∈ xs) := by
  intro x y z hx hy hz hxy hyz hzx
  have hsymm : Std.Symm fun a b => cmp a b = some true ∨ cmp b a = some true :=
    ⟨fun _ _ => Or.symm⟩
  -- `x` comes before `y` or is `y`, so `z` would come before `y`
  by_cases hne : x = y
  · exact hyz (hne ▸ hzx)
  · have hxy' := (ht.total.forall hx hy hne).resolve_right hxy
    exact hyz (ht.trans z hz x hx y hy hzx hxy')

/-- The elements of a sorted array, under a strict total order. -/
theorem pairwise_of_sortedOn (ht : Sorter.StrictTotal cmp xs) {t : LuaTable}
    (harr : t.IsArrayOf xs) (hsorted : SortedOn LuaTable.cells cmp 1 xs.length t) :
    (t.elements 1 xs.length).Pairwise fun x y => cmp x y = some true := by
  obtain ⟨⟨ys, hes, hperm⟩, _⟩ := harr
  have htotal : ys.Pairwise fun x y => cmp x y = some true ∨ cmp y x = some true :=
    (hperm.pairwise_iff Or.symm).mpr ht.total
  rw [← hperm.length_eq, LuaTable.elements_eq hes]
  rw [List.pairwise_iff_getElem] at htotal ⊢
  intro i j hi hj hij
  have hnot := hsorted ↑(i + 1) ↑(j + 1) (by omega) (by omega)
    (by have := hperm.length_eq; omega)
  simp only [LuaTable.cells, LuaTable.get_integer_getElem hes hi,
    LuaTable.get_integer_getElem hes hj] at hnot
  exact (htotal i j hi hj hij).resolve_right hnot

/-- What the development takes `table.sort` for holds of the quicksort under every comparator that
never puts each of two elements before the other: its loops end on the table by themselves, with the
elements in some order, raise only where a comparison that they make raises, compare the elements of
a pair, and sort under a strict total order. -/
theorem bundledSort_lawful :
    (∀ cmp x y, IsStorable [x, y] → SortProgram.Asks cmp y x (bundledSort [x, y])) ∧
      ∀ cmp xs, IsStorable xs → Asymmetric cmp (· ∈ xs) → ∃ ys, ys.Perm xs ∧
        (((sortArray xs).run cmp = .done (setContents (keyArray xs) 1 ys) ∧
            (bundledSort xs).run cmp = .ok ys ∧
            (Sorter.StrictTotal cmp xs → ys.Pairwise fun x y => cmp x y = some true)) ∨
          ((sortArray xs).run cmp = .raised (setContents (keyArray xs) 1 ys) ∧
            (bundledSort xs).run cmp = .error ys ∧
            ∃ x y, SortProgram.Asks cmp x y (bundledSort xs) ∧ cmp x y = none)) := by
  refine ⟨fun cmp x y hx => asks_bundledSort_pair hx, fun cmp xs hx hasymm => ?_⟩
  obtain ⟨t, ht, hrun⟩ := bundledSort_run hx hasymm
  obtain ⟨hperm, heq⟩ := eq_setContents_of_isArrayOf hx ht
  refine ⟨t.elements 1 xs.length, hperm, ?_⟩
  rw [← heq]
  rcases hrun with ⟨hr, hp, hsorted⟩ | ⟨hr, hp, x, y, _, _, ha, hn⟩
  · refine Or.inl ⟨hr, hp, fun htotal => ?_⟩
    exact pairwise_of_sortedOn htotal ht (hsorted (transitive_of_strictTotal htotal))
  · exact Or.inr ⟨hr, hp, x, y, ha, hn⟩

/-- A comparator that puts `"a"` before `"b"` and nothing else. -/
def lessAB (x y : LuaValue) : Option Bool := some (decide (x = .string [97] ∧ y = .string [98]))

theorem asymmetric_lessAB (E : LuaValue → Prop) : Asymmetric lessAB E := by
  intro x y _ _ hxy hyx
  have hx := of_decide_eq_true (Option.some.inj hxy)
  have hy := of_decide_eq_true (Option.some.inj hyx)
  rw [hx.1] at hy
  exact absurd hy.2 (by decide)

/-- The two strings in the other order. -/
theorem bundledSort_lawful_pair : ∃ ys, ys.Perm [.string [98], .string [97]] ∧
    (bundledSort [.string [98], .string [97]]).run lessAB = .ok ys := by
  obtain ⟨ys, hperm, ⟨_, hrun, _⟩ | ⟨_, _, x, y, _, hn⟩⟩ :=
    bundledSort_lawful.2 lessAB [.string [98], .string [97]] ⟨by simp, by decide⟩
      (asymmetric_lessAB _)
  · exact ⟨ys, hperm, hrun⟩
  · cases hn

end LuaBinaryTable
