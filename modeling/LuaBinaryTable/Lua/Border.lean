import LuaBinaryTable.Lua.Array

/-!
# What a border says about the keys

Of the indices `1..b` up to a border `b` some may be `holes`, and a table may have keys `outside`
of them.  The entries are those of the indices that are no holes and those outside
(`length_add_holes`), so their number is the border exactly where there are as many keys outside as
there are holes.  In a `Contiguous` table there are no holes and only one border.
-/

namespace LuaBinaryTable

open LuaValue

/-- A key equal to a positive integer is that integer. -/
theorem eq_integer_of_rawEqual {k : LuaValue} {i : Nat} (hpos : 0 < i) (hi : i < 2 ^ 53)
    (h : k.rawEqual (integer i) = true) : k = integer i := by
  rcases rawEqual_iff.mp h with ⟨x, y, rfl, hy, hxy⟩ | ⟨_, rfl⟩
  · cases hy
    obtain ⟨_, _, rfl | ⟨_, hz⟩⟩ := Binary64.equal_iff.mp hxy
    · rfl
    · -- the integer is not zero
      exfalso
      have hu := Binary64.units_ofInt_of_le (z := i) (by omega)
      have hscale := Binary64.scale_pos
      rw [Binary64.units_eq_zero_of_magnitude hz] at hu
      rcases Int.mul_eq_zero.mp hu.symm with h | h <;> omega
  · rfl

theorem integer_inj {i j : Nat} (hi : i < 2 ^ 53) (hj : j < 2 ^ 53)
    (h : integer i = integer j) : i = j := by
  have heq : (integer i).rawEqual (integer j) = true := by
    rw [← h]
    exact rawEqual_self (isKey_integer (by omega))
  exact_mod_cast (rawEqual_integer_iff (by omega) (by omega)).mp heq

namespace LuaTable

variable (t : LuaTable)

/-- The key is one of the indices `1..b`. -/
def IsIndex (b : Nat) (k : LuaValue) : Prop := ∃ i, i < b ∧ k = integer ↑(i + 1)

instance (b : Nat) (k : LuaValue) : Decidable (IsIndex b k) :=
  decidable_of_iff (∃ i ∈ List.range b, k = integer ↑(i + 1)) (by simp [IsIndex])

/-- The entries of the indices `1..b`, whether the table has them or not. -/
def indexEntries (b : Nat) : Entries :=
  (List.range b).map fun i : Nat => (integer ↑(i + 1), t.get (integer ↑(i + 1)))

/-- The number of indices in `1..b` without a value. -/
def holes (b : Nat) : Nat := (t.indexEntries b).countP fun e => decide (e.2 = .nil)

/-- The number of keys other than `1..b`. -/
def outside (b : Nat) : Nat := t.entries.countP fun e => decide (¬ IsIndex b e.1)

variable {t}

@[simp] theorem length_indexEntries (b : Nat) : (t.indexEntries b).length = b := by
  simp [indexEntries]

/-- The entries of `n` indices, from `i` on. -/
theorem arrayEntries_elements (t : LuaTable) (n i : Nat) :
    arrayEntries i (t.elements i n) =
      (List.range n).map fun j : Nat => (integer ↑(i + j), t.get (integer ↑(i + j))) := by
  induction n generalizing i with
  | zero => rfl
  | succ n ih =>
    rw [elements, arrayEntries, ih, List.range_succ_eq_map, List.map_cons, List.map_map]
    simp only [Function.comp_def, Nat.succ_eq_add_one, Nat.add_assoc, Nat.add_comm 1, Nat.add_zero]

theorem indexEntries_eq (b : Nat) : t.indexEntries b = arrayEntries 1 (t.elements 1 b) := by
  rw [arrayEntries_elements, indexEntries]
  simp only [Nat.add_comm 1]

theorem mem_indexEntries {b : Nat} {e : LuaValue × LuaValue} :
    e ∈ t.indexEntries b ↔ IsIndex b e.1 ∧ e.2 = t.get e.1 := by
  simp only [indexEntries, List.mem_map, List.mem_range, IsIndex]
  constructor
  · rintro ⟨i, hi, rfl⟩
    exact ⟨⟨i, hi, rfl⟩, rfl⟩
  · rintro ⟨⟨i, hi, hk⟩, hv⟩
    exact ⟨i, hi, Prod.ext hk.symm (by rw [hv, hk])⟩

theorem nodup_indexEntries {b : Nat} (hb : b < 2 ^ 53) : (t.indexEntries b).Nodup := by
  refine List.Nodup.map_on (fun i hi j hj h => ?_) List.nodup_range
  rw [List.mem_range] at hi hj
  have := integer_inj (by omega) (by omega) (Prod.ext_iff.mp h).1
  omega

theorem nodup_entries (t : LuaTable) : t.entries.Nodup := by
  refine List.Pairwise.imp_of_mem (fun {e e'} he _ hne => ?_) t.keys_distinct
  rintro rfl
  rw [rawEqual_self (t.keys_legal e he)] at hne
  cases hne

/-- A table has an entry for an index exactly where it holds a value there. -/
theorem mem_entries_iff {b : Nat} (hb : b < 2 ^ 53) {e : LuaValue × LuaValue}
    (he : IsIndex b e.1) : e ∈ t.entries ↔ e.2 = t.get e.1 ∧ e.2 ≠ .nil := by
  constructor
  · exact fun h => ⟨(t.get_of_mem h).symm, t.values_present e h⟩
  · rintro ⟨hv, hn⟩
    obtain ⟨e', he', hk, hv'⟩ := Entries.exists_of_lookup_ne_nil (hv ▸ hn)
    obtain ⟨i, hi, hki⟩ := he
    rw [hki] at hk
    have hkey := eq_integer_of_rawEqual (Nat.succ_pos i) (by omega) hk
    have heq : e = e' := Prod.ext (hki.trans hkey.symm) (hv.trans hv')
    rwa [heq]

/-- The entries of the indices `1..b` are those that are no holes. -/
theorem perm_indexEntries {b : Nat} (hb : b < 2 ^ 53) :
    (t.entries.filter fun e => decide (IsIndex b e.1)).Perm
      ((t.indexEntries b).filter fun e => decide (¬ e.2 = .nil)) := by
  refine (List.perm_ext_iff_of_nodup (t.nodup_entries.filter _)
    ((nodup_indexEntries hb).filter _)).mpr fun e => ?_
  simp only [List.mem_filter, decide_eq_true_eq, mem_indexEntries]
  constructor
  · rintro ⟨he, hi⟩
    obtain ⟨hv, hn⟩ := (mem_entries_iff hb hi).mp he
    exact ⟨⟨hi, hv⟩, hn⟩
  · rintro ⟨⟨hi, hv⟩, hn⟩
    exact ⟨(mem_entries_iff hb hi).mpr ⟨hv, hn⟩, hi⟩

/-- The entries, counted by the indices `1..b`. -/
theorem length_add_holes {b : Nat} (hb : b < 2 ^ 53) :
    t.entries.length + t.holes b = b + t.outside b := by
  have hin := (perm_indexEntries (t := t) hb).length_eq
  have hsplit := List.length_eq_countP_add_countP (l := t.entries)
    fun e => decide (IsIndex b e.1)
  have hsplit' := List.length_eq_countP_add_countP (l := t.indexEntries b)
    fun e => decide (e.2 = .nil)
  simp only [decide_eq_true_eq, length_indexEntries, List.countP_eq_length_filter] at hsplit hsplit'
  simp only [holes, outside, List.countP_eq_length_filter]
  omega

/-- The keys are the indices `1..b` exactly where no index is a hole and no key is outside. -/
theorem holes_eq_zero_iff {b : Nat} :
    t.holes b = 0 ↔ ∀ i, i < b → t.get (integer ↑(i + 1)) ≠ .nil := by
  simp only [holes, List.countP_eq_zero, decide_eq_true_eq, indexEntries, List.mem_map,
    List.mem_range, forall_exists_index, and_imp]
  exact ⟨fun h i hi => h _ i hi rfl, fun h e i hi he => by rw [← he]; exact h i hi⟩

/-- Without holes, no element is `nil`. -/
theorem elements_ne_nil {b : Nat} (hh : t.holes b = 0) : ∀ v ∈ t.elements 1 b, v ≠ .nil := by
  intro v hv
  rw [holes, indexEntries_eq, List.countP_eq_zero] at hh
  obtain ⟨k, hk⟩ := exists_mem_arrayEntries (i := 1) hv
  simpa using hh _ hk

theorem outside_eq_zero_iff {b : Nat} : t.outside b = 0 ↔ ∀ e ∈ t.entries, IsIndex b e.1 := by
  simp [outside, List.countP_eq_zero]

/-- Without holes and keys outside, the entries are those of the indices. -/
theorem perm_of_no_holes {b : Nat} (hb : b < 2 ^ 53) (hh : t.holes b = 0) (ho : t.outside b = 0) :
    t.entries.Perm (t.indexEntries b) := by
  have hp := perm_indexEntries (t := t) hb
  rw [List.filter_eq_self.mpr fun e he => by simpa using outside_eq_zero_iff.mp ho e he,
    List.filter_eq_self.mpr fun e he => ?_] at hp
  · exact hp
  · obtain ⟨⟨i, hi, hk⟩, hv⟩ := mem_indexEntries.mp he
    rw [decide_eq_true_eq, hv, hk]
    exact holes_eq_zero_iff.mp hh i hi

/-! ### Contiguous tables -/

/-- Of the integers from 1 on that an `int` can hold, the keys are exactly `1..m` for some `m`. -/
def Contiguous (t : LuaTable) : Prop :=
  ∃ m : Nat, ∀ i : Nat, i < 2 ^ 31 → (t.get (integer ↑(i + 1)) ≠ .nil ↔ i < m)

/-- A contiguous table has one border, and no hole below it. -/
theorem Contiguous.border (h : t.Contiguous) :
    t.holes t.border = 0 ∧
      ∀ i : Nat, i < 2 ^ 31 → (t.get (integer ↑(i + 1)) ≠ .nil ↔ i < t.border) := by
  obtain ⟨m, hm⟩ := h
  obtain ⟨hb, hpos, hnil⟩ := t.border_legal
  have hge : ¬ t.border < m := fun hlt => (hm t.border hb).mpr hlt (by simpa [get] using hnil)
  have heq : t.border = m ∨ 2 ^ 31 ≤ m := by
    by_cases hz : t.border = 0
    · omega
    · have hlast := (hm (t.border - 1) (by omega)).mp (by
        rw [Nat.sub_add_cancel (Nat.pos_of_ne_zero hz)]; exact hpos hz)
      omega
  obtain rfl : t.border = m := by omega
  exact ⟨holes_eq_zero_iff.mpr fun i hi => (hm i (by omega)).mpr hi, hm⟩

/-- A contiguous table of as many entries as its border has no others. -/
theorem Contiguous.perm (h : t.Contiguous) (hlen : t.entries.length = t.border) :
    t.entries.Perm (t.indexEntries t.border) := by
  have hb := t.border_legal.1
  have hcount := length_add_holes (t := t) (b := t.border) (by omega)
  exact perm_of_no_holes (by omega) h.border.1 (by rw [h.border.1] at hcount; omega)

end LuaTable

end LuaBinaryTable
