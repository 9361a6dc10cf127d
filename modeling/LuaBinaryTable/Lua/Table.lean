import LuaBinaryTable.Binary64.Equiv.Conversion
import LuaBinaryTable.Lua.Value
import Mathlib.Combinatorics.Pigeonhole

/-!
# Lua tables

A `LuaTable` is the list of its entries in the order in which `lua_next` visits them, with the
border that `lua_objlen` returns.  Both depend in Lua on the memory layout of the table, which its
history determines; here any order and any legal border will do.  The fields of the structure say
what Lua guarantees of every table: keys are neither `nil` nor `NaN` and pairwise different, values
are not `nil`, and the border is one (`IsBorder`).  The last is asked of tables of fewer than `2^31`
entries, which is what Lua indexes with an `int`; every such table has a border
(`isBorder_findBorder`).
-/

namespace LuaBinaryTable

open LuaValue

/-- The entries of a table: keys with their values. -/
abbrev Entries := List (LuaValue × LuaValue)

/-- The number of an integer key. -/
def integer (i : Int) : LuaValue := .number (Binary64.ofInt i)

namespace Entries

/-- The value at `k`, `nil` where there is none. -/
def lookup : Entries → LuaValue → LuaValue
  | [], _ => .nil
  | e :: es, k => if e.1.rawEqual k then e.2 else lookup es k

/-- The entries with the value at `k` replaced, the entry removed where the value is `nil`. -/
def set : Entries → LuaValue → LuaValue → Entries
  | [], k, v => if v = .nil then [] else [(k, v)]
  | e :: es, k, v =>
    if e.1.rawEqual k then (if v = .nil then es else (e.1, v) :: es) else e :: set es k v

/-- The entry after the one of key `k`. -/
def nextAfter : Entries → LuaValue → Option (LuaValue × LuaValue)
  | [], _ => none
  | e :: es, k => if e.1.rawEqual k then es.head? else nextAfter es k

/-- A border: `j > 0` with a value at `j` and none at `j + 1`, or 0 with none at 1. -/
def IsBorder (es : Entries) (j : Nat) : Prop :=
  j < 2 ^ 31 ∧ (j ≠ 0 → es.lookup (integer j) ≠ .nil) ∧ es.lookup (integer (j + 1)) = .nil

/-- The first index from `j` on after which there is no value, looking at most `fuel` further. -/
def borderFrom (es : Entries) : Nat → Nat → Nat
  | 0, j => j
  | fuel + 1, j => if es.lookup (integer (j + 1)) = .nil then j else borderFrom es fuel (j + 1)

/-- The least border. -/
def findBorder (es : Entries) : Nat := borderFrom es es.length 0

end Entries

/-- A Lua table. -/
structure LuaTable where
  entries : Entries
  border : Nat
  keys_legal : ∀ e ∈ entries, e.1.isKey = true
  keys_distinct : entries.Pairwise fun e e' => e.1.rawEqual e'.1 = false
  values_present : ∀ e ∈ entries, e.2 ≠ .nil
  length_lt : entries.length < 2 ^ 31
  border_legal : entries.IsBorder border

/-! ### Integer keys -/

theorem isKey_integer {i : Int} (h : i.natAbs < 2 ^ 53) : (integer i).isKey = true := by
  simp [integer, isKey, Binary64.isNaN_ofInt_of_le h]

theorem rawEqual_integer_iff {i j : Int} (hi : i.natAbs < 2 ^ 53) (hj : j.natAbs < 2 ^ 53) :
    (integer i).rawEqual (integer j) = true ↔ i = j :=
  Binary64.equal_ofInt_iff hi hj

namespace Entries

/-! ### Lookup and update -/

theorem lookup_eq_nil {es : Entries} {k : LuaValue} (h : ∀ e ∈ es, e.1.rawEqual k = false) :
    es.lookup k = .nil := by
  induction es with
  | nil => rfl
  | cons e es ih =>
    rw [lookup, h e (List.mem_cons_self ..)]
    exact ih fun e' he' => h e' (List.mem_cons_of_mem _ he')

/-- A value found belongs to an entry. -/
theorem exists_of_lookup_ne_nil {es : Entries} {k : LuaValue} (h : es.lookup k ≠ .nil) :
    ∃ e ∈ es, e.1.rawEqual k = true ∧ es.lookup k = e.2 := by
  induction es with
  | nil => exact absurd rfl h
  | cons e es ih =>
    rw [lookup] at h ⊢
    split_ifs at h ⊢ with he
    · exact ⟨e, List.mem_cons_self .., he, rfl⟩
    · obtain ⟨e', he', hk, hv⟩ := ih h
      exact ⟨e', List.mem_cons_of_mem _ he', hk, hv⟩

/-- Where keys are different, the entry of a key is the one found. -/
theorem lookup_of_mem {es : Entries} (hd : es.Pairwise fun e e' => e.1.rawEqual e'.1 = false)
    {e : LuaValue × LuaValue} (he : e ∈ es) {k : LuaValue} (hk : e.1.rawEqual k = true) :
    es.lookup k = e.2 := by
  induction es with
  | nil => simp at he
  | cons e' es ih =>
    rw [List.pairwise_cons] at hd
    rw [lookup]
    rcases List.mem_cons.mp he with rfl | he
    · rw [if_pos hk]
    · have hne : e'.1.rawEqual k = false := by
        by_contra hc
        have := rawEqual_trans (Bool.not_eq_false _ ▸ hc) (rawEqual_symm hk)
        rw [hd.1 e he] at this
        exact Bool.false_ne_true this
      rw [hne]
      exact ih hd.2 he

theorem lookup_congr {es : Entries} {k k' : LuaValue} (h : k.rawEqual k' = true) :
    es.lookup k = es.lookup k' := by
  induction es with
  | nil => rfl
  | cons e es ih =>
    have hiff : e.1.rawEqual k = e.1.rawEqual k' :=
      Bool.eq_iff_iff.mpr ⟨fun he => rawEqual_trans he h,
        fun he => rawEqual_trans he (rawEqual_symm h)⟩
    rw [lookup, lookup, hiff, ih]

/-- Every entry of an updated table is an old one, or the new value under `k` or a key equal to
it. -/
theorem mem_set {es : Entries} {k v : LuaValue} {e : LuaValue × LuaValue}
    (h : e ∈ es.set k v) : e ∈ es ∨
      (v ≠ .nil ∧ e.2 = v ∧ (e.1 = k ∨ ∃ e' ∈ es, e'.1 = e.1 ∧ e'.1.rawEqual k = true)) := by
  induction es with
  | nil =>
    rw [set] at h
    split_ifs at h with hv
    · simp at h
    · obtain rfl := List.mem_singleton.mp h
      exact Or.inr ⟨hv, rfl, Or.inl rfl⟩
  | cons e' es ih =>
    rw [set] at h
    split_ifs at h with hk hv
    · exact Or.inl (List.mem_cons_of_mem _ h)
    · rcases List.mem_cons.mp h with rfl | h
      · exact Or.inr ⟨hv, rfl, Or.inr ⟨e', List.mem_cons_self .., rfl, hk⟩⟩
      · exact Or.inl (List.mem_cons_of_mem _ h)
    · rcases List.mem_cons.mp h with rfl | h
      · exact Or.inl (List.mem_cons_self ..)
      · rcases ih h with h | ⟨hv, he, hk' | ⟨e'', he'', hk'⟩⟩
        · exact Or.inl (List.mem_cons_of_mem _ h)
        · exact Or.inr ⟨hv, he, Or.inl hk'⟩
        · exact Or.inr ⟨hv, he, Or.inr ⟨e'', List.mem_cons_of_mem _ he'', hk'⟩⟩

/-- What is stored under a key is found under it. -/
theorem lookup_set_self {es : Entries}
    (hd : es.Pairwise fun e e' => e.1.rawEqual e'.1 = false) {k v : LuaValue}
    (hk : k.isKey = true) : (es.set k v).lookup k = v := by
  induction es with
  | nil =>
    rw [set]
    split_ifs with hv
    · rw [hv]; rfl
    · simp [lookup, rawEqual_self hk]
  | cons e es ih =>
    rw [List.pairwise_cons] at hd
    rw [set]
    split_ifs with he hv
    · rw [hv]
      apply lookup_eq_nil
      intro e' he'
      by_contra hc
      have := rawEqual_trans he (rawEqual_symm (Bool.not_eq_false _ ▸ hc))
      rw [hd.1 e' he'] at this
      exact Bool.false_ne_true this
    · simp [lookup, he]
    · rw [lookup, if_neg he]
      exact ih hd.2

/-- What is stored under a key changes no other one. -/
theorem lookup_set_of_ne {es : Entries} {k k' v : LuaValue} (h : k.rawEqual k' = false) :
    (es.set k v).lookup k' = es.lookup k' := by
  induction es with
  | nil =>
    rw [set]
    split_ifs
    · rfl
    · simp [lookup, h]
  | cons e es ih =>
    have hne : e.1.rawEqual k = true → e.1.rawEqual k' = false := by
      intro he
      by_contra hc
      have := rawEqual_trans (rawEqual_symm he) (Bool.not_eq_false _ ▸ hc)
      rw [h] at this
      exact Bool.false_ne_true this
    rw [set]
    split_ifs with he hv
    · rw [lookup, hne he]; rfl
    · rw [lookup, lookup, hne he]; rfl
    · rw [lookup, lookup, ih]

theorem length_set_le (es : Entries) (k v : LuaValue) :
    (es.set k v).length ≤ es.length + 1 := by
  induction es with
  | nil => rw [set]; split_ifs <;> simp
  | cons e es ih =>
    rw [set]
    split_ifs
    · simp only [List.length_cons]; omega
    · simp
    · simp only [List.length_cons]; omega

/-- Storing keeps the keys different. -/
theorem pairwise_set {es : Entries} (hd : es.Pairwise fun e e' => e.1.rawEqual e'.1 = false)
    (k v : LuaValue) : (es.set k v).Pairwise fun e e' => e.1.rawEqual e'.1 = false := by
  induction es with
  | nil => rw [set]; split_ifs <;> simp
  | cons e es ih =>
    rw [List.pairwise_cons] at hd
    rw [set]
    split_ifs with he hv
    · exact hd.2
    · exact List.pairwise_cons.mpr hd
    · refine List.pairwise_cons.mpr ⟨fun e' he' => ?_, ih hd.2⟩
      rcases mem_set he' with h | ⟨_, _, h | ⟨e'', he'', h, _⟩⟩
      · exact hd.1 e' h
      · rw [h]; exact Bool.eq_false_of_not_eq_true he
      · rw [← h]; exact hd.1 e'' he''

/-- A key without an entry is appended. -/
theorem set_of_lookup_eq_nil {es : Entries} (hp : ∀ e ∈ es, e.2 ≠ .nil) {k v : LuaValue}
    (h : es.lookup k = .nil) (hv : v ≠ .nil) : es.set k v = es ++ [(k, v)] := by
  induction es with
  | nil => rw [set, if_neg hv]; rfl
  | cons e es ih =>
    rw [lookup] at h
    split_ifs at h with he
    · exact absurd h (hp e (List.mem_cons_self ..))
    · rw [set, if_neg he, ih (fun e' he' => hp e' (List.mem_cons_of_mem _ he')) h]
      rfl

/-! ### Traversal -/

theorem nextAfter_append {pre post : Entries} {e : LuaValue × LuaValue}
    (hd : (pre ++ e :: post).Pairwise fun e e' => e.1.rawEqual e'.1 = false)
    (hk : e.1.isKey = true) : nextAfter (pre ++ e :: post) e.1 = post.head? := by
  induction pre with
  | nil => simp [nextAfter, rawEqual_self hk]
  | cons e' pre ih =>
    rw [List.cons_append, List.pairwise_cons] at hd
    rw [List.cons_append, nextAfter, hd.1 e (by simp)]
    exact ih hd.2

/-! ### Borders -/

/-- Fewer than `n` entries cannot have all of the keys `1..n`. -/
theorem exists_lookup_eq_nil {es : Entries} {n : Nat} (hn : es.length < n) (hb : n < 2 ^ 53) :
    ∃ i, i < n ∧ es.lookup (integer (i + 1)) = .nil := by
  by_contra hall
  push Not at hall
  let position (i : Nat) : Nat := es.findIdx fun e => e.1.rawEqual (integer (i + 1))
  have hpos : ∀ i, i < n → position i < es.length := by
    intro i hi
    obtain ⟨e, he, hk, _⟩ := exists_of_lookup_ne_nil (hall i hi)
    exact List.findIdx_lt_length_of_exists ⟨e, he, hk⟩
  -- two keys would have to be at one place
  obtain ⟨i, hi, j, hj, hij, heq⟩ :=
    Finset.exists_ne_map_eq_of_card_lt_of_maps_to (s := Finset.range n)
      (t := Finset.range es.length) (f := position) (by simpa using hn)
      (fun i hi => by simpa using hpos i (by simpa using hi))
  rw [Finset.mem_range] at hi hj
  have hfound : ∀ i (hi : i < n),
      (es.get ⟨position i, hpos i hi⟩).1.rawEqual (integer (i + 1)) = true :=
    fun i hi => List.findIdx_getElem (w := hpos i hi)
  have hik := hfound i hi
  have hjk := hfound j hj
  have hsame : es.get ⟨position i, hpos i hi⟩ = es.get ⟨position j, hpos j hj⟩ :=
    congrArg es.get (Fin.ext heq)
  rw [hsame] at hik
  have hkeys : (integer (i + 1)).rawEqual (integer (j + 1)) = true :=
    rawEqual_trans (rawEqual_symm hik) hjk
  have := (rawEqual_integer_iff (by omega) (by omega)).mp hkeys
  omega

/-- The search for the border stops at the first index that is absent, if its fuel gets it
there. -/
theorem borderFrom_spec (es : Entries) (fuel j : Nat)
    (hpre : ∀ i, i < j → es.lookup (integer (i + 1)) ≠ .nil) :
    j ≤ es.borderFrom fuel j ∧ es.borderFrom fuel j ≤ j + fuel ∧
      (∀ i, i < es.borderFrom fuel j → es.lookup (integer (i + 1)) ≠ .nil) ∧
      (es.borderFrom fuel j < j + fuel →
        es.lookup (integer (es.borderFrom fuel j + 1)) = .nil) := by
  induction fuel generalizing j with
  | zero => exact ⟨le_rfl, le_rfl, hpre, fun h => absurd h (lt_irrefl _)⟩
  | succ fuel ih =>
    rw [borderFrom]
    split_ifs with h
    · exact ⟨le_rfl, by omega, hpre, fun _ => h⟩
    · obtain ⟨h1, h2, h3, h4⟩ := ih (j + 1) (fun i hi => by
        rcases Nat.lt_succ_iff_lt_or_eq.mp hi with hi | rfl
        · exact hpre i hi
        · exact h)
      exact ⟨by omega, by omega, h3, fun hlt => h4 (by omega)⟩

/-- Every table that an `int` can index has a border. -/
theorem isBorder_findBorder {es : Entries} (h : es.length < 2 ^ 31) :
    es.IsBorder es.findBorder := by
  obtain ⟨_, h2, h3, h4⟩ := borderFrom_spec es es.length 0 (by simp)
  unfold findBorder
  rw [Nat.zero_add] at h2 h4
  refine ⟨by omega, fun hne => ?_, ?_⟩
  · have := h3 (es.borderFrom es.length 0 - 1) (by omega)
    rwa [show ((es.borderFrom es.length 0 - 1 : Nat) : Int) + 1 =
      (es.borderFrom es.length 0 : Nat) by omega] at this
  · rcases Nat.lt_or_eq_of_le h2 with hlt | heq
    · exact h4 hlt
    · -- all of `1..length` are keys, so there is no room for another
      obtain ⟨i, hi, hnil⟩ := @exists_lookup_eq_nil es _ (Nat.lt_succ_self _) (by omega)
      have hi' : i = es.borderFrom es.length 0 := by
        by_contra hne
        exact h3 i (by omega) hnil
      rw [← hi']
      exact hnil

end Entries

namespace LuaTable

open Entries

/-- The empty table. -/
def empty : LuaTable where
  entries := []
  border := 0
  keys_legal := by simp
  keys_distinct := List.Pairwise.nil
  values_present := by simp
  length_lt := Nat.two_pow_pos 31
  border_legal := ⟨Nat.two_pow_pos 31, by simp, rfl⟩

/-- `luaH_get`. -/
def get (t : LuaTable) (k : LuaValue) : LuaValue := t.entries.lookup k

/-- Assignment under a key (`luaH_set`).  A value that is no key changes nothing, its error is
raised in `LuaState.rawset`, and neither does an entry more than a table can have, where Lua runs
out of memory. -/
def set (t : LuaTable) (k v : LuaValue) : LuaTable :=
  if h : k.isKey = true ∧ (t.entries.set k v).length < 2 ^ 31 then
    { entries := t.entries.set k v
      border := (t.entries.set k v).findBorder
      keys_legal := by
        intro e he
        rcases mem_set he with he | ⟨_, _, hk | ⟨e', he', hk, _⟩⟩
        · exact t.keys_legal e he
        · rw [hk]; exact h.1
        · rw [← hk]; exact t.keys_legal e' he'
      keys_distinct := pairwise_set t.keys_distinct k v
      values_present := by
        intro e he
        rcases mem_set he with he | ⟨hv, he, _⟩
        · exact t.values_present e he
        · rw [he]; exact hv
      length_lt := h.2
      border_legal := isBorder_findBorder h.2 }
  else t

/-- `luaH_next`: the first entry after `nil`, and after a key the entry that follows it. -/
def next (t : LuaTable) : LuaValue → Option (LuaValue × LuaValue)
  | .nil => t.entries.head?
  | k => t.entries.nextAfter k

/-- The keys in traversal order. -/
def keys (t : LuaTable) : List LuaValue := t.entries.map Prod.fst

theorem ext_fields {t t' : LuaTable} (he : t.entries = t'.entries) (hb : t.border = t'.border) :
    t = t' := by
  cases t
  cases t'
  simp only at he hb
  subst he hb
  rfl

theorem entries_set (t : LuaTable) {k v : LuaValue} (hk : k.isKey = true)
    (h : (t.entries.set k v).length < 2 ^ 31) : (t.set k v).entries = t.entries.set k v := by
  rw [set, dif_pos ⟨hk, h⟩]

theorem get_set_self (t : LuaTable) {k v : LuaValue} (hk : k.isKey = true)
    (h : (t.entries.set k v).length < 2 ^ 31) : (t.set k v).get k = v := by
  rw [get, entries_set t hk h]
  exact lookup_set_self t.keys_distinct hk

theorem get_set_of_ne (t : LuaTable) {k k' : LuaValue} (h : k.rawEqual k' = false) (v : LuaValue) :
    (t.set k v).get k' = t.get k' := by
  unfold set
  split_ifs
  · exact lookup_set_of_ne h
  · rfl

/-- An assignment changes the value of a key to the value assigned or not at all. -/
theorem get_set_or (t : LuaTable) (k v k' : LuaValue) :
    (t.set k v).get k' = t.get k' ∨ (t.set k v).get k' = v := by
  by_cases h : k.isKey = true ∧ (t.entries.set k v).length < 2 ^ 31
  · cases he : k.rawEqual k' with
    | true =>
      right
      rw [get, ← lookup_congr he]
      exact get_set_self t h.1 h.2
    | false => exact Or.inl (get_set_of_ne t he v)
  · left
    rw [set, dif_neg h]

theorem get_of_mem (t : LuaTable) {e : LuaValue × LuaValue} (he : e ∈ t.entries) :
    t.get e.1 = e.2 :=
  lookup_of_mem t.keys_distinct he (rawEqual_self (t.keys_legal e he))

/-- The keys of a table with their values are its entries. -/
theorem map_keys_get (t : LuaTable) : t.keys.map (fun k => (k, t.get k)) = t.entries := by
  rw [keys, List.map_map]
  refine (List.map_congr_left fun e he => ?_).trans (List.map_id _)
  rw [Function.comp_apply, t.get_of_mem he]
  rfl

theorem entries_set_of_get_eq_nil (t : LuaTable) {k v : LuaValue} (hk : k.isKey = true)
    (h : t.get k = .nil) (hv : v ≠ .nil) (hn : t.entries.length + 1 < 2 ^ 31) :
    (t.set k v).entries = t.entries ++ [(k, v)] := by
  have hs := set_of_lookup_eq_nil t.values_present h hv
  rw [entries_set t hk (by rw [hs]; simpa using hn), hs]

end LuaTable

end LuaBinaryTable
