import LuaBinaryTable.Document.Equiv.Emit

/-!
# Room on the stack

`WriteFits` and `ReadFits` say of a document that its nesting leaves room enough: a table that is
written as an array holds one slot under its elements, any other two under its keys and values, and
a table that is read holds one under its elements and a second under the value of a key.  They are
what it takes to stay below a number of slots (`writeSlots_le_iff`, `slots_le_iff`).
-/

namespace LuaBinaryTable

namespace Doc

/-! ### Writing -/

mutual

/-- The strings that are stored once the document is written, after the strings `seen`.  A Lua table
takes fewer than `2^31`. -/
def remember : Doc → List Bytes → List Bytes
  | string s, seen =>
    if s = [] ∨ seen.contains s ∨ 2 ^ 31 ≤ seen.length + 1 then seen else seen ++ [s]
  | array _ items, seen => rememberItems items seen
  | table _ items, seen => rememberItems items seen
  | _, seen => seen

def rememberItems : List Doc → List Bytes → List Bytes
  | [], seen => seen
  | d :: ds, seen => if d.Complete then rememberItems ds (d.remember seen) else d.remember seen

end

mutual

/-- The document is written in `n` slots, after the strings `seen`. -/
def WriteFits : Nat → Doc → List Bytes → Prop
  | n, string s, seen => s = [] ∨ (if seen.contains s then 1 else 2) ≤ n
  | n, emptyTable, _ => 1 ≤ n
  -- `lua_next` needs two slots before the first element takes the one it holds
  | n, array _ items, seen => 2 ≤ n ∧ WriteFitsItems (n - 1) items seen
  -- the sort is called with five, and the array of keys and a key stay below each item
  | n, table _ items, seen => 5 ≤ n ∧ WriteFitsItems (n - 2) items seen
  | _, _, _ => True

def WriteFitsItems : Nat → List Doc → List Bytes → Prop
  | _, [], _ => True
  | n, d :: ds, seen =>
    WriteFits n d seen ∧ (d.Complete → WriteFitsItems n ds (d.remember seen))

end

end Doc

/-- The pool knows the strings `seen` and no others. -/
structure Pool.Knows (pool : Pool) (seen : List Bytes) : Prop where
  isNew_iff : ∀ s, pool.IsNew s ↔ s ∉ seen
  length_eq : pool.handle.entries.length = seen.length

namespace Pool.Knows

variable {pool : Pool} {seen : List Bytes}

theorem start : Pool.empty.Knows [] where
  isNew_iff _ := iff_of_true rfl List.not_mem_nil
  length_eq := rfl

/-- A string that is stored is known from then on, as long as its number fits. -/
theorem store (hk : pool.Knows seen) (s : Bytes) :
    (pool.store s).2.Knows
      (if s ∈ seen ∨ 2 ^ 31 ≤ seen.length + 1 then seen else seen ++ [s]) := by
  rw [Pool.store]
  by_cases hnew : pool.IsNew s
  · have hs : s ∉ seen := (hk.isNew_iff s).mp hnew
    -- the entry is added at the end, as long as the table has room for it
    have hset : pool.handle.entries.set (.string s) (integer ↑(pool.size + 1)) =
        pool.handle.entries ++ [(.string s, integer ↑(pool.size + 1))] :=
      Entries.set_of_lookup_eq_nil pool.handle.values_present hnew (by simp [integer])
    rw [if_pos hnew]
    by_cases hfull : 2 ^ 31 ≤ seen.length + 1
    · -- the table takes no more
      rw [if_pos (Or.inr hfull)]
      have hsame : pool.handle.set (.string s) (integer ↑(pool.size + 1)) = pool.handle := by
        rw [LuaTable.set, dif_neg]
        rw [hset, List.length_append, List.length_singleton, hk.length_eq]
        omega
      rw [hsame]
      exact ⟨hk.isNew_iff, hk.length_eq⟩
    · rw [if_neg (by tauto)]
      have hentries : (pool.handle.set (.string s) (integer ↑(pool.size + 1))).entries = _ :=
        (LuaTable.entries_set _ rfl (by
          rw [hset, List.length_append, List.length_singleton, hk.length_eq]
          omega)).trans hset
      constructor
      · intro s'
        rw [IsNew, List.mem_append, List.mem_singleton, not_or, ← hk.isNew_iff]
        by_cases heq : s' = s
        · subst heq
          have hget := LuaTable.get_set_self pool.handle (k := .string s')
            (v := integer ↑(pool.size + 1)) rfl (by
              rw [hset, List.length_append, List.length_singleton, hk.length_eq]
              omega)
          rw [hget]
          simp [integer]
        · have hne : (LuaValue.string s).rawEqual (.string s') = false := by
            simp [LuaValue.rawEqual, Ne.symm heq]
          rw [LuaTable.get_set_of_ne _ hne]
          exact (and_iff_left heq).symm
      · rw [hentries, List.length_append, hk.length_eq, List.length_append]
        rfl
  · have hs : s ∈ seen := not_not.mp fun h => hnew ((hk.isNew_iff s).mpr h)
    rw [if_neg hnew, if_pos (Or.inl hs)]
    exact hk

end Pool.Knows

namespace Doc

theorem ite_zero_le_iff {p : Prop} [Decidable p] {m n : Nat} :
    (if p then m else 0) ≤ n ↔ (p → m ≤ n) := by
  split_ifs with hp <;> simp [hp]

mutual

/-- The strings of a document are known when it has been emitted. -/
theorem knows_emit : ∀ (d : Doc) (e : EmitState) (seen : List Bytes), e.pool.Knows seen →
    (d.emit e).pool.Knows (d.remember seen)
  | string s, e, seen, hk => by
    rw [emit, remember]
    by_cases hs : s = []
    · subst hs
      exact hk
    · have hl : s.length ≠ 0 := fun h => hs (List.length_eq_zero_iff.mp h)
      simp only [hs, hl, false_or, if_false]
      have hstore := hk.store s
      simp only [← List.contains_iff_mem] at hstore
      exact hstore
  | array size items, e, seen, hk =>
    knows_emitItems items { e with stream := writeLength e.stream .tArray0 size } seen hk
  | table size items, e, seen, hk =>
    knows_emitItems items { e with stream := writeLength e.stream .tTable0 size } seen hk
  | nil, _, _, hk | boolean _, _, _, hk | integer _, _, _, hk | double _, _, _, hk
  | emptyTable, _, _, hk | stop _, _, _, hk => hk

theorem knows_emitItems : ∀ (ds : List Doc) (e : EmitState) (seen : List Bytes),
    e.pool.Knows seen → (emitItems ds e).pool.Knows (rememberItems ds seen)
  | [], _, _, hk => hk
  | d :: ds, e, seen, hk => by
    rw [emitItems, rememberItems]
    split_ifs
    · exact knows_emitItems ds _ _ (knows_emit d e seen hk)
    · exact knows_emit d e seen hk

end

mutual

/-- The slots that writing takes are no more than `n` exactly where the document fits them. -/
theorem writeSlots_le_iff : ∀ (n : Nat) (d : Doc) (e : EmitState) (seen : List Bytes),
    e.pool.Knows seen → (d.writeSlots e ≤ n ↔ d.WriteFits n seen)
  | n, string s, e, seen, hk => by
    rw [writeSlots, WriteFits]
    by_cases hs : s = []
    · subst hs
      simp
    · have hl : s.length ≠ 0 := fun h => hs (List.length_eq_zero_iff.mp h)
      rw [if_neg hl, or_iff_right hs]
      -- a string that was met is looked up in one slot, a new one is stored with its number
      by_cases hm : s ∈ seen
      · rw [if_neg fun hn => (hk.isNew_iff s).mp hn hm, if_pos (List.contains_iff_mem.mpr hm)]
      · rw [if_pos ((hk.isNew_iff s).mpr hm), if_neg fun hc => hm (List.contains_iff_mem.mp hc)]
  | n, array size items, e, seen, hk => by
    have hitems := writeSlotsItems_le_iff (n - 1) items
      { e with stream := writeLength e.stream .tArray0 size } seen hk
    rw [writeSlots, WriteFits, ← hitems]
    omega
  | n, table size items, e, seen, hk => by
    have hitems := writeSlotsItems_le_iff (n - 2) items
      { e with stream := writeLength e.stream .tTable0 size } seen hk
    rw [writeSlots, WriteFits, ← hitems]
    omega
  | n, emptyTable, _, _, _ => by rw [writeSlots, WriteFits]
  | n, nil, _, _, _ | n, boolean _, _, _, _ | n, integer _, _, _, _ | n, double _, _, _, _
  | n, stop _, _, _, _ => iff_of_true (Nat.zero_le n) trivial

theorem writeSlotsItems_le_iff : ∀ (n : Nat) (ds : List Doc) (e : EmitState) (seen : List Bytes),
    e.pool.Knows seen → (writeSlotsItems ds e ≤ n ↔ WriteFitsItems n ds seen)
  | n, [], _, _, _ => iff_of_true (Nat.zero_le n) trivial
  | n, d :: ds, e, seen, hk => by
    rw [writeSlotsItems, WriteFitsItems, Nat.max_le, writeSlots_le_iff n d e seen hk,
      ite_zero_le_iff, writeSlotsItems_le_iff n ds _ _ (knows_emit d e seen hk)]

end

/-! ### Reading -/

section

variable (sizes : TableSizes)

mutual

/-- The document is read in `n` slots. -/
def ReadFits : Nat → Doc → Prop
  | n, array size items => sizes (toInt32 size) 0 = true → 1 ≤ n ∧ ReadFitsItems (n - 1) items
  | n, table size items => sizes 0 (toInt32 size) = true → 1 ≤ n ∧ ReadFitsEntries (n - 1) items
  | _, stop _ => True
  | n, _ => 1 ≤ n

def ReadFitsItems : Nat → List Doc → Prop
  | _, [] => True
  | n, d :: ds => ReadFits n d ∧ (d.outcome sizes = .complete → ReadFitsItems n ds)

/-- The key stays on the stack while its value is read. -/
def ReadFitsEntries : Nat → List Doc → Prop
  | _, [] => True
  | n, [k] => ReadFits n k
  | n, k :: v :: ds => ReadFits n k ∧ (k.outcome sizes = .complete →
      (1 ≤ n ∧ ReadFits (n - 1) v) ∧
        (v.outcome sizes = .complete ∧ k.isKey = true → ReadFitsEntries n ds))

end

variable {sizes}

mutual

/-- The slots that reading takes are no more than `n` exactly where the document fits them. -/
theorem slots_le_iff : ∀ (n : Nat) (d : Doc), d.slots sizes ≤ n ↔ d.ReadFits sizes n
  | n, array size items => by
    rw [slots, ReadFits, ite_zero_le_iff, ← slotsItems_le_iff (n - 1) items]
    exact imp_congr_right fun _ => by omega
  | n, table size items => by
    rw [slots, ReadFits, ite_zero_le_iff, ← slotsEntries_le_iff (n - 1) items]
    exact imp_congr_right fun _ => by omega
  | n, stop _ => iff_of_true (Nat.zero_le n) trivial
  | n, nil | n, boolean _ | n, integer _ | n, double _ | n, string _ | n, emptyTable => by
    rw [slots, ReadFits] <;> simp

theorem slotsItems_le_iff : ∀ (n : Nat) (ds : List Doc),
    slotsItems sizes ds ≤ n ↔ ReadFitsItems sizes n ds
  | n, [] => iff_of_true (Nat.zero_le n) trivial
  | n, d :: ds => by
    rw [slotsItems, ReadFitsItems, Nat.max_le, slots_le_iff n d, ite_zero_le_iff,
      slotsItems_le_iff n ds]

theorem slotsEntries_le_iff : ∀ (n : Nat) (ds : List Doc),
    slotsEntries sizes ds ≤ n ↔ ReadFitsEntries sizes n ds
  | n, [] => iff_of_true (Nat.zero_le n) trivial
  | n, [k] => by rw [slotsEntries, ReadFitsEntries, slots_le_iff n k]
  | n, k :: v :: ds => by
    rw [slotsEntries, ReadFitsEntries, Nat.max_le, slots_le_iff n k, ite_zero_le_iff, Nat.max_le,
      ite_zero_le_iff, slotsEntries_le_iff n ds, ← slots_le_iff (n - 1) v]
    exact and_congr_right' (imp_congr_right fun _ => and_congr_left' (by omega))

end

end

end Doc

end LuaBinaryTable
