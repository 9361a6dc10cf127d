import LuaBinaryTable.Lua.Getn

/-!
# `luaH_getn` finds a border

The searches of `luaH_getn` end, and what they find is a border of the table, however its entries
are divided (`getn_isBorder`).  Nothing else is asked of the `border` of a `LuaTable`.
-/

namespace LuaBinaryTable

namespace LuaTable

open Entries

variable {t : LuaTable} {parts : Parts t}

theorem bmod_natCast {i : Nat} (hi : i < 2 ^ 31) : (i : Int).bmod (2 ^ 32) = i := by
  rw [Int.bmod_def]
  omega

/-- Both tests agree on the integers that are not converted. -/
theorem numNil_eq {i : Nat} (hi : i < 2 ^ 31) : t.numNil i = t.arrayNil i := by
  rw [numNil, bmod_natCast hi, arrayNil]

theorem isBorder_of_boundary {b : Nat} (hb : b < 2 ^ 31) (h : Boundary t.arrayNil b) :
    t.entries.IsBorder b := by
  refine ⟨hb, fun hne hnil => ?_, ?_⟩
  · have hpresent : ¬ t.get (integer b) = .nil := of_decide_eq_false (h.1 hne)
    exact hpresent hnil
  · exact_mod_cast of_decide_eq_true h.2

/-- A boundary among the unsigned integers is one of the table. -/
theorem boundary_of_numNil {b : Nat} (hb : b + 1 < 2 ^ 31) (h : Boundary t.numNil b) :
    Boundary t.arrayNil b := by
  rwa [Boundary, numNil_eq (by omega), numNil_eq hb] at h

/-- Without a hash part there is no value behind the array part. -/
theorem arrayNil_of_hashEmpty (h : parts.hashEmpty = true) :
    t.arrayNil (parts.sizearray + 1) = true := by
  have hlt := parts.sizearray_lt
  refine decide_eq_true ?_
  by_contra hne
  obtain ⟨e, he, hkey, _⟩ := exists_of_lookup_ne_nil hne
  obtain ⟨i, _, hle, hi⟩ := parts.entries_inside h e he
  rw [hi] at hkey
  have heq := (rawEqual_integer_iff (by omega) (by omega)).mp hkey
  omega

/-- `luaH_getn` finds a border. -/
theorem getn_isBorder (hlen : t.entries.length + 1 < 2 ^ 31) :
    ∃ b, t.entries.IsBorder b ∧ ∃ n, ∀ fuel, n ≤ fuel → t.getn parts fuel = some b := by
  have hsize := parts.sizearray_lt
  by_cases harray : 0 < parts.sizearray ∧ t.arrayNil parts.sizearray
  · -- the binary search in the array part
    obtain ⟨hpos, hnil⟩ := harray
    have hroom : parts.sizearray - 0 ≤ 2 ^ 31 := by omega
    obtain ⟨b, hb, hlt, hboundary⟩ :=
      bisect_spec hroom hpos (by omega) (fun h => absurd rfl h) hnil
    refine ⟨b, isBorder_of_boundary (by omega) hboundary, 31 + 1, fun fuel hle => ?_⟩
    rw [getn, if_pos ⟨hpos, hnil⟩]
    exact bisect_mono hb hle
  have hpresent : parts.sizearray ≠ 0 → t.arrayNil parts.sizearray = false := fun hne =>
    Bool.eq_false_of_not_eq_true fun h => harray ⟨Nat.pos_of_ne_zero hne, h⟩
  cases hhash : parts.hashEmpty with
  | true =>
    refine ⟨parts.sizearray, isBorder_of_boundary (by omega) ⟨hpresent, ?_⟩, 0, fun fuel _ => ?_⟩
    · exact arrayNil_of_hashEmpty hhash
    · rw [getn, if_neg harray, if_pos hhash]
  | false =>
    -- the search in the hash part, which has an end since the entries have one
    obtain ⟨i, hi, hnil⟩ := @exists_lookup_eq_nil t.entries (t.entries.length + 1)
      (Nat.lt_succ_self _) (by omega)
    have habsent : t.numNil (i + 1) = true := by
      rw [numNil_eq (by omega)]
      exact decide_eq_true (by exact_mod_cast hnil)
    obtain ⟨b, hb, hlt, hboundary⟩ := @unboundSearch_spec t.numNil (2 ^ 31) parts.sizearray (i + 1)
      (by omega) (by decide) (Nat.succ_pos i) (by omega) habsent hsize
      (fun hne => (numNil_eq (by omega)).trans (hpresent hne))
    refine ⟨b, isBorder_of_boundary (by omega) (boundary_of_numNil hlt hboundary), 2 ^ 31,
      fun fuel hle => ?_⟩
    rw [getn, if_neg harray, if_neg (by rw [hhash]; exact Bool.false_ne_true)]
    exact unboundSearch_mono hb hle

/-- The values 1 and 3 without 2. -/
def gapTable : LuaTable :=
  (LuaTable.empty.set (integer 1) (.boolean true)).set (integer 3) (.boolean true)

theorem entries_gapTable :
    gapTable.entries = [(integer 1, .boolean true), (integer 3, .boolean true)] ∧
      gapTable.border = 1 := by decide +kernel

/-- The table as a constructor with `nil` in the middle makes it. -/
def gapParts : Parts gapTable where
  sizearray := 3
  hashEmpty := true
  sizearray_lt := by decide
  entries_inside _ e he := by
    rw [entries_gapTable.1] at he
    simp only [List.mem_cons, List.not_mem_nil, or_false] at he
    rcases he with rfl | rfl
    · exact ⟨1, by decide, by decide, rfl⟩
    · exact ⟨3, by decide, by decide, rfl⟩

/-- The search finds another border than the least one. -/
theorem getn_isBorder_gapTable : gapTable.border = 1 ∧ gapTable.entries.IsBorder 3 ∧
    ∃ n, ∀ fuel, n ≤ fuel → gapTable.getn gapParts fuel = some 3 := by
  obtain ⟨b, hb, n, hn⟩ := @getn_isBorder gapTable gapParts (by rw [entries_gapTable.1]; decide)
  have hthree : gapTable.arrayNil 3 = false := by decide +kernel
  have hgetn : gapTable.getn gapParts n = some 3 := by
    rw [getn, if_neg (by rw [show gapParts.sizearray = 3 from rfl, hthree]; simp)]
    rfl
  obtain rfl := Option.some.inj ((hn n le_rfl).symm.trans hgetn)
  exact ⟨entries_gapTable.2, hb, n, hn⟩

end LuaTable

end LuaBinaryTable
