import LuaBinaryTable.Lua.Table

/-!
# Tables that hold an array

`arrayEntries i vs` is the entries of the values `vs` under the integer keys from `i` on.  A table
with the entries `arrayEntries 1 vs` has the border `vs.length` and holds `vs` at `1..vs.length`
(`border_eq`, `get_integer`), and storing values one after the other keeps this shape
(`entries_setContents_append`, `entries_setContents_replace`).
-/

namespace LuaBinaryTable

open LuaValue

def arrayEntries : Nat → List LuaValue → Entries
  | _, [] => []
  | i, v :: vs => (integer i, v) :: arrayEntries (i + 1) vs

/-- The next `n` elements, from index `i` on. -/
def LuaTable.elements (t : LuaTable) : Nat → Nat → List LuaValue
  | _, 0 => []
  | i, n + 1 => t.get (integer i) :: t.elements (i + 1) n

/-- The table with the elements from `i` on replaced. -/
def setContents (t : LuaTable) : Nat → List LuaValue → LuaTable
  | _, [] => t
  | i, v :: vs => setContents (t.set (integer i) v) (i + 1) vs

@[simp] theorem length_arrayEntries (i : Nat) (vs : List LuaValue) :
    (arrayEntries i vs).length = vs.length := by
  induction vs generalizing i with
  | nil => rfl
  | cons v vs ih => rw [arrayEntries, List.length_cons, ih, List.length_cons]

theorem arrayEntries_append (i : Nat) (us vs : List LuaValue) :
    arrayEntries i (us ++ vs) = arrayEntries i us ++ arrayEntries (i + us.length) vs := by
  induction us generalizing i with
  | nil => rfl
  | cons u us ih =>
    rw [List.cons_append, arrayEntries, ih, arrayEntries, List.length_cons, List.cons_append,
      Nat.add_assoc, Nat.add_comm 1]

/-- The entry of an index. -/
theorem lookup_arrayEntries {i m : Nat} {vs : List LuaValue} (hi : i + vs.length ≤ 2 ^ 53)
    (hm : m < 2 ^ 53) :
    (arrayEntries i vs).lookup (integer m) =
      if i ≤ m then (vs[m - i]?).getD .nil else .nil := by
  induction vs generalizing i with
  | nil => simp [arrayEntries, Entries.lookup]
  | cons v vs ih =>
    rw [List.length_cons] at hi
    have heq := rawEqual_integer_iff (i := i) (j := m) (by omega) (by omega)
    rw [arrayEntries, Entries.lookup, ih (by omega)]
    by_cases him : i = m
    · subst him
      rw [if_pos (heq.mpr rfl), if_pos le_rfl, Nat.sub_self]
      rfl
    · rw [if_neg (fun h => him (by exact_mod_cast heq.mp h))]
      by_cases hle : i ≤ m
      · rw [if_pos hle, if_pos (by omega), show m - i = (m - (i + 1)) + 1 by omega,
          List.getElem?_cons_succ]
      · rw [if_neg hle, if_neg (by omega)]

namespace Entries

/-- An entry is replaced in place. -/
theorem set_append_cons {pre post : Entries} {k old v : LuaValue}
    (hpre : ∀ e ∈ pre, e.1.rawEqual k = false) (hk : k.isKey = true) (hv : v ≠ .nil) :
    set (pre ++ (k, old) :: post) k v = pre ++ (k, v) :: post := by
  induction pre with
  | nil => simp [set, rawEqual_self hk, hv]
  | cons e pre ih =>
    rw [List.cons_append, set, hpre e (List.mem_cons_self ..)]
    simp only [Bool.false_eq_true, if_false]
    rw [ih fun e' he' => hpre e' (List.mem_cons_of_mem _ he'), List.cons_append]

end Entries

theorem mem_arrayEntries {i : Nat} {vs : List LuaValue} {e : LuaValue × LuaValue}
    (h : e ∈ arrayEntries i vs) : ∃ j, i ≤ j ∧ j < i + vs.length ∧ e.1 = integer j := by
  induction vs generalizing i with
  | nil => simp [arrayEntries] at h
  | cons v vs ih =>
    rw [arrayEntries, List.mem_cons] at h
    rcases h with rfl | h
    · exact ⟨i, le_rfl, by simp, rfl⟩
    · obtain ⟨j, h1, h2, h3⟩ := ih h
      exact ⟨j, by omega, by rw [List.length_cons]; omega, h3⟩

theorem exists_mem_arrayEntries {i : Nat} {vs : List LuaValue} {v : LuaValue} (h : v ∈ vs) :
    ∃ k, (k, v) ∈ arrayEntries i vs := by
  induction vs generalizing i with
  | nil => simp at h
  | cons w vs ih =>
    rcases List.mem_cons.mp h with rfl | h
    · exact ⟨_, List.mem_cons_self ..⟩
    · obtain ⟨k, hk⟩ := ih (i := i + 1) h
      exact ⟨k, List.mem_cons_of_mem _ hk⟩

/-- The entries below an index have other keys. -/
theorem arrayEntries_rawEqual_false {i m : Nat} {vs : List LuaValue} (hm : i + vs.length ≤ m)
    (hb : m < 2 ^ 53) : ∀ e ∈ arrayEntries i vs, e.1.rawEqual (integer m) = false := by
  intro e he
  obtain ⟨j, _, hj, hk⟩ := mem_arrayEntries he
  rw [hk]
  by_contra hc
  have := (rawEqual_integer_iff (i := j) (j := m) (by omega) (by omega)).mp
    (Bool.not_eq_false _ ▸ hc)
  omega

namespace LuaTable

variable {t : LuaTable} {vs : List LuaValue}

theorem length_lt_of_entries (h : t.entries = arrayEntries 1 vs) : vs.length < 2 ^ 31 := by
  have := t.length_lt
  rwa [h, length_arrayEntries] at this

/-- An array holds its values at the indices from 1 on. -/
theorem get_integer (h : t.entries = arrayEntries 1 vs) {m : Nat} (hm : m + 1 < 2 ^ 53) :
    t.get (integer ↑(m + 1)) = (vs[m]?).getD .nil := by
  have hlt := length_lt_of_entries h
  rw [get, h, lookup_arrayEntries (by omega) hm, if_pos (by omega), Nat.add_sub_cancel]

/-- The border of an array is its length. -/
theorem border_eq (h : t.entries = arrayEntries 1 vs) (hv : ∀ v ∈ vs, v ≠ .nil) :
    t.border = vs.length := by
  have hlt := length_lt_of_entries h
  obtain ⟨hb, hpos, hnil⟩ := t.border_legal
  have hnext := get_integer h (m := t.border) (by omega)
  rw [get, Nat.cast_succ, hnil] at hnext
  rcases Nat.lt_or_ge t.border vs.length with hlt' | hge
  · rw [List.getElem?_eq_getElem hlt'] at hnext
    exact absurd hnext.symm (hv _ (List.getElem_mem hlt'))
  · by_contra hne
    refine hpos (by omega) ?_
    have hlast := get_integer h (m := t.border - 1) (by omega)
    rw [Nat.sub_add_cancel (by omega), List.getElem?_eq_none (by omega)] at hlast
    exact hlast

/-- Values stored behind the last element become elements. -/
theorem entries_setContents_append : ∀ {vs ws : List LuaValue} {t : LuaTable},
    t.entries = arrayEntries 1 vs → (∀ w ∈ ws, w ≠ .nil) → vs.length + ws.length < 2 ^ 31 →
      (setContents t (vs.length + 1) ws).entries = arrayEntries 1 (vs ++ ws)
  | vs, [], t, h, _, _ => by rw [setContents, h, List.append_nil]
  | vs, w :: ws, t, h, hw, hlen => by
    rw [List.length_cons] at hlen
    have hget : t.get (integer ↑(vs.length + 1)) = .nil := by
      rw [get_integer h (by omega), List.getElem?_eq_none le_rfl]
      rfl
    have hset : (t.set (integer ↑(vs.length + 1)) w).entries = arrayEntries 1 (vs ++ [w]) := by
      rw [entries_set_of_get_eq_nil t (isKey_integer (by omega)) hget (hw w (by simp))
        (by rw [h, length_arrayEntries]; omega), h, arrayEntries_append, Nat.add_comm 1]
      rfl
    have hrest := entries_setContents_append hset
      (fun w' h' => hw w' (List.mem_cons_of_mem _ h')) (by simp; omega)
    rw [List.length_append, List.length_singleton, List.append_assoc, List.singleton_append]
      at hrest
    rw [setContents]
    exact hrest

/-- A value stored over an element takes its place. -/
theorem entries_set_integer {us post : List LuaValue} {old v : LuaValue}
    (h : t.entries = arrayEntries 1 (us ++ old :: post)) (hv : v ≠ .nil) :
    (t.set (integer ↑(us.length + 1)) v).entries = arrayEntries 1 (us ++ v :: post) := by
  have hlt := length_lt_of_entries h
  rw [List.length_append, List.length_cons] at hlt
  have hkey : (integer ↑(us.length + 1)).isKey = true := isKey_integer (by omega)
  have hes : t.entries.set (integer ↑(us.length + 1)) v = arrayEntries 1 (us ++ v :: post) := by
    rw [h, arrayEntries_append, arrayEntries, Nat.add_comm 1, Entries.set_append_cons
      (arrayEntries_rawEqual_false (by omega) (by omega)) hkey hv, arrayEntries_append,
      arrayEntries, Nat.add_comm 1]
  rw [entries_set t hkey (by rw [hes]; simp; omega), hes]

/-- Values stored over elements take their places. -/
theorem entries_setContents_replace : ∀ {us olds ws : List LuaValue} {t : LuaTable},
    t.entries = arrayEntries 1 (us ++ olds) → olds.length = ws.length → (∀ w ∈ ws, w ≠ .nil) →
      (setContents t (us.length + 1) ws).entries = arrayEntries 1 (us ++ ws)
  | us, [], [], t, h, _, _ => by rw [setContents, h]
  | us, old :: olds, w :: ws, t, h, hlen, hw => by
    have hset : (t.set (integer ↑(us.length + 1)) w).entries =
        arrayEntries 1 ((us ++ [w]) ++ olds) := by
      rw [entries_set_integer h (hw w (by simp)), List.append_assoc, List.singleton_append]
    have hrest := @entries_setContents_replace (us ++ [w]) olds ws _ hset (by simpa using hlen)
      (fun w' h' => hw w' (List.mem_cons_of_mem _ h'))
    rw [List.length_append, List.length_singleton, List.append_assoc, List.singleton_append]
      at hrest
    rw [setContents]
    exact hrest

end LuaTable

end LuaBinaryTable
