import LuaBinaryTable.Document.Equiv.Encode
import LuaBinaryTable.Document.Equiv.Layout
import LuaBinaryTable.Document.Size
import LuaBinaryTable.Lua.Border
import LuaBinaryTable.Lua.Reachable
import Mathlib.Algebra.Order.BigOperators.Group.List

/-!
# How long a document is

Every value of a complete document takes from one to nine bytes (`nodes_le_encode`,
`encode_le_nodes`), and every string of the pool at least two of them (`two_mul_collect_le`).  The
layout of a value has as many values as the value has nodes, or as few as half of them, since arrays
are written without their keys (`nodes_layout_le`, `nodes_lt_layout`).
-/

namespace LuaBinaryTable

namespace Doc

/-! ### The bytes of a value -/

theorem width_le (type : BinaryType) : type.width ≤ 8 := by
  cases type <;> decide

theorem length_node_le (type : BinaryType) (payload : Int) :
    (type.node payload).length ≤ 9 := by
  rw [length_node]
  have hwidth := width_le type
  omega

theorem length_node_pos (type : BinaryType) (payload : Int) :
    0 < (type.node payload).length := by
  rw [length_node]
  omega

mutual

/-- A value takes at most nine bytes, besides those of the values that it holds. -/
theorem encode_le_nodes (pool : List Bytes) : ∀ d : Doc, (d.encode pool).length ≤ 9 * d.nodes
  | nil => length_node_le _ _
  | boolean b => by cases b <;> exact length_node_le _ _
  | integer i => length_node_le _ _
  | double x => length_node_le _ _
  | string s => by
    rw [encode]
    split_ifs
    · exact length_node_le _ _
    · exact length_node_le _ _
  | emptyTable => length_node_le _ _
  | array size items => by
    have hnode := length_node_le (lengthType .tArray0 size) size
    have hitems := encodeItems_le_nodes pool items
    rw [encode, nodes, List.length_append]
    omega
  | table size items => by
    have hnode := length_node_le (lengthType .tTable0 size) size
    have hitems := encodeItems_le_nodes pool items
    rw [encode, nodes, List.length_append]
    omega
  | stop why => Nat.zero_le _

theorem encodeItems_le_nodes (pool : List Bytes) : ∀ ds : List Doc,
    (encodeItems pool ds).length ≤ 9 * nodesItems ds
  | [] => Nat.zero_le _
  | d :: ds => by
    have hd := encode_le_nodes pool d
    have hds := encodeItems_le_nodes pool ds
    rw [encodeItems, nodesItems, List.length_append]
    omega

end

mutual

/-- A value of a complete document takes a byte at least. -/
theorem nodes_le_encode (pool : List Bytes) : ∀ d : Doc, d.Complete →
    d.nodes ≤ (d.encode pool).length
  | nil, _ => length_node_pos _ _
  | boolean b, _ => by cases b <;> exact length_node_pos _ _
  | integer i, _ => length_node_pos _ _
  | double x, _ => length_node_pos _ _
  | string s, _ => by
    rw [encode]
    split_ifs
    · exact length_node_pos _ _
    · exact length_node_pos _ _
  | emptyTable, _ => length_node_pos _ _
  | array size items, hc => by
    have hnode := length_node_pos (lengthType .tArray0 size) size
    have hitems := nodesItems_le_encode pool items (stopsItems_eq_none.mp hc)
    rw [encode, nodes, List.length_append]
    omega
  | table size items, hc => by
    have hnode := length_node_pos (lengthType .tTable0 size) size
    have hitems := nodesItems_le_encode pool items (stopsItems_eq_none.mp hc)
    rw [encode, nodes, List.length_append]
    omega
  | stop why, hc => by cases hc

theorem nodesItems_le_encode (pool : List Bytes) : ∀ ds : List Doc, (∀ d ∈ ds, d.Complete) →
    nodesItems ds ≤ (encodeItems pool ds).length
  | [], _ => Nat.zero_le _
  | d :: ds, hc => by
    have hd := nodes_le_encode pool d (hc d (List.mem_cons_self ..))
    have hds := nodesItems_le_encode pool ds fun d' hd' => hc d' (List.mem_cons_of_mem _ hd')
    rw [encodeItems, nodesItems, List.length_append]
    omega

end

/-! ### The bytes of the pool -/

theorem length_encodePool (strs : List Bytes) : (encodePool strs).length = poolSize strs := by
  induction strs with
  | nil => rfl
  | cons s strs ih =>
    rw [encodePool, List.length_append, List.length_append, length_leBytesInt, ih, poolSize,
      poolSize, List.map_cons, List.sum_cons]

theorem poolSize_eq (strs : List Bytes) :
    poolSize strs = 2 * strs.length + (strs.map List.length).sum := by
  rw [poolSize, List.sum_map_add, List.map_const', List.sum_replicate, smul_eq_mul, Nat.mul_comm]
  rfl

theorem length_encodeHead (strs : List Bytes) :
    (encodeHead strs).length = 8 + poolSize strs := by
  rw [encodeHead]
  simp only [List.length_append, length_leBytesInt, length_encodePool, stringPoolLengthSize]
  omega

theorem encodeFile_eq_head (d : Doc) :
    d.encodeFile = encodeHead (d.collect []) ++ d.encode (d.collect []) := by
  unfold encodeFile encodeHead
  simp only [List.append_assoc]

theorem length_encodeFile (d : Doc) :
    d.encodeFile.length = 8 + poolSize (d.collect []) + (d.encode (d.collect [])).length := by
  rw [encodeFile_eq_head, List.length_append, length_encodeHead]

/-- The reference to a string that is not empty has a payload. -/
theorem two_le_stringNode {n : Nat} (hn : n ≠ 0) (payload : Int) :
    2 ≤ ((lengthType .tString0 n).node payload).length := by
  rw [length_node, width_lengthType (Or.inl rfl), if_neg hn]
  split_ifs <;> omega

mutual

/-- Every string of the pool is referred to, in two bytes at least. -/
theorem two_mul_collect_le (pool : List Bytes) : ∀ (d : Doc) (seen : List Bytes),
    2 * (d.collect seen).length ≤ 2 * seen.length + (d.encode pool).length
  | nil, _ | boolean _, _ | integer _, _ | double _, _ | emptyTable, _ | stop _, _ =>
    Nat.le_add_right _ _
  | string s, seen => by
    rw [collect, encode]
    by_cases hs : s = []
    · rw [if_pos (Or.inl hs)]
      exact Nat.le_add_right _ _
    -- a tag and an index, whether the string is met for the first time or again
    · have htwo := two_le_stringNode (n := stringIndex pool s) (Nat.succ_ne_zero _)
        (stringIndex pool s)
      rw [if_neg hs]
      split_ifs
      · exact Nat.le_add_right _ _
      · rw [List.length_append, List.length_singleton]
        omega
  | array size items, seen => by
    have hitems := two_mul_collectItems_le pool items seen
    rw [collect, encode, List.length_append]
    omega
  | table size items, seen => by
    have hitems := two_mul_collectItems_le pool items seen
    rw [collect, encode, List.length_append]
    omega

theorem two_mul_collectItems_le (pool : List Bytes) : ∀ (ds : List Doc) (seen : List Bytes),
    2 * (collectItems ds seen).length ≤ 2 * seen.length + (encodeItems pool ds).length
  | [], _ => Nat.le_add_right _ _
  | d :: ds, seen => by
    have hd := two_mul_collect_le pool d seen
    have hds := two_mul_collectItems_le pool ds (d.collect seen)
    rw [collectItems, encodeItems, List.length_append]
    omega

end

end Doc

/-! ### Layouts -/

theorem nodes_pos (h : List LuaTable) (fuel : Nat) (v : LuaValue) : 0 < nodes h fuel v := by
  cases fuel with
  | zero => exact Nat.one_pos
  | succ fuel =>
    cases v with
    | table ref =>
      rw [nodes]
      omega
    | _ => exact Nat.one_pos

theorem sum_map_filter {α : Type} (p : α → Bool) (f : α → Nat) (l : List α) :
    (l.map f).sum = ((l.filter p).map f).sum + ((l.filter fun a => !p a).map f).sum := by
  rw [← List.sum_append, ← List.map_append]
  exact ((List.filter_append_perm p l).map f).sum_eq.symm

section

variable {env : Env} {h : List LuaTable} {t : LuaTable}

theorem map_snd_arrayEntries (i : Nat) (vs : List LuaValue) :
    (arrayEntries i vs).map Prod.snd = vs := by
  induction vs generalizing i with
  | nil => rfl
  | cons v vs ih => rw [arrayEntries, List.map_cons, ih]

/-- The elements of a table are the values of its indices, and `nil` for each hole. -/
theorem sum_elements (f : LuaValue → Nat) {b : Nat} (hb : b < 2 ^ 53) :
    ((t.elements 1 b).map f).sum =
      ((t.entries.filter fun e => decide (LuaTable.IsIndex b e.1)).map fun e => f e.2).sum +
        t.holes b * f .nil := by
  have hindex : ((t.elements 1 b).map f).sum = ((t.indexEntries b).map fun e => f e.2).sum := by
    rw [LuaTable.indexEntries_eq, ← map_snd_arrayEntries 1 (t.elements 1 b), List.map_map,
      map_snd_arrayEntries]
    rfl
  have hholes : (((t.indexEntries b).filter fun e => decide (e.2 = .nil)).map fun e => f e.2).sum =
      t.holes b * f .nil := by
    have hnil : ∀ e ∈ (t.indexEntries b).filter fun e => decide (e.2 = .nil),
        f e.2 = f .nil := by
      intro e he
      rw [of_decide_eq_true (List.mem_filter.mp he).2]
    rw [List.map_congr_left hnil, List.map_const', List.sum_replicate, LuaTable.holes,
      List.countP_eq_length_filter, smul_eq_mul]
  have hrest := ((LuaTable.perm_indexEntries (t := t) hb).map fun e => f e.2).sum_eq
  rw [hindex, sum_map_filter fun e => decide (e.2 = .nil), hholes, hrest, Nat.add_comm]
  simp only [decide_not]

/-- The keys and values of a table, in any order of the keys. -/
theorem sum_alternate (f : LuaValue → Nat) {ks : List LuaValue} (hks : ks.Perm t.keys) :
    ((t.alternate ks).map f).sum = (t.entries.map fun e => f e.1 + f e.2).sum := by
  have hflat : ∀ ks : List LuaValue,
      ((t.alternate ks).map f).sum = (ks.map fun k => f k + f (t.get k)).sum := by
    intro ks
    unfold LuaTable.alternate
    induction ks with
    | nil => rfl
    | cons k ks ih =>
      rw [List.flatMap_cons, List.map_append, List.sum_append, ih, List.map_cons, List.sum_cons]
      simp only [List.map_cons, List.map_nil, List.sum_cons, List.sum_nil, Nat.add_zero]
  rw [hflat, (hks.map _).sum_eq, LuaTable.keys, List.map_map]
  congr 1
  refine List.map_congr_left fun e he => ?_
  show f e.1 + f (t.get e.1) = f e.1 + f e.2
  rw [t.get_of_mem he]

theorem nodesItems_map (lay : LuaValue → Doc) (vs : List LuaValue) :
    Doc.nodesItems (vs.map lay) = (vs.map fun v => (lay v).nodes).sum := by
  rw [Doc.nodesItems_eq, List.map_map]
  rfl

/-- What is written of a table takes no more than its keys and values: a hole takes the place of a
key outside. -/
theorem nodes_layoutTable_le (hperm : env.sort.Permutes) {lay : LuaValue → Doc}
    {f : LuaValue → Nat} (hlay : ∀ v, (lay v).nodes ≤ f v) (hpos : ∀ v, 0 < f v)
    (hnil : f .nil = 1) :
    (layoutTable env lay t).nodes ≤ 1 + (t.entries.map fun e => f e.1 + f e.2).sum := by
  have hitems : ∀ vs : List LuaValue, Doc.nodesItems (vs.map lay) ≤ (vs.map f).sum := by
    intro vs
    rw [nodesItems_map]
    exact List.sum_le_sum fun v _ => hlay v
  -- each key counts for one at least
  have hlen : t.entries.length ≤ (t.entries.map fun e => f e.1).sum := by
    have hone := List.sum_le_sum (l := t.entries) (f := fun _ => 1) (g := fun e => f e.1)
      fun e _ => hpos e.1
    rwa [List.map_const', List.sum_replicate, smul_eq_mul, Nat.mul_one] at hone
  rw [List.sum_map_add]
  unfold layoutTable
  split_ifs with hz ha
  · exact Nat.le_add_right _ _
  -- an array writes no keys, so their count pays for its holes
  · have hb : t.border < 2 ^ 53 := lt_trans t.border_legal.1 (by decide)
    have hsum := sum_elements (t := t) f hb
    have hholes : t.holes t.border ≤ t.border := by
      have hcount := List.countP_le_length (l := t.indexEntries t.border)
        (p := fun e => decide (e.2 = .nil))
      rwa [LuaTable.length_indexEntries] at hcount
    have hfilter := sum_map_filter (fun e => decide (LuaTable.IsIndex t.border e.1))
      (fun e => f e.2) t.entries
    have helements := hitems (t.elements 1 t.border)
    rw [Doc.nodes, ha]
    rw [ha] at hlen
    rw [hnil, Nat.mul_one] at hsum
    omega
  · rw [Doc.nodes]
    cases hks : t.sortedKeys env with
    | none =>
      show 1 + Doc.nodesItems [.stop .unsortable] ≤ _
      have hone : Doc.nodesItems [.stop .unsortable] = 1 := rfl
      omega
    | some ks =>
      have hkeys := hitems (t.alternate ks)
      rw [sum_alternate f (sortedKeys_perm hperm hks), List.sum_map_add] at hkeys
      exact Nat.add_le_add_left hkeys 1

/-- A layout has at most as many values as the value has nodes. -/
theorem nodes_layout_le (hperm : env.sort.Permutes) : ∀ (fuel : Nat) (v : LuaValue),
    (layout env h fuel v).nodes ≤ nodes h fuel v
  | 0, _ => Nat.le_refl 1
  | fuel + 1, v => by
    cases v with
    | table ref =>
      rw [layout]
      cases ht : h[ref]? with
      | none => exact nodes_pos h (fuel + 1) (.table ref)
      | some t =>
        rw [nodes_table ht]
        exact nodes_layoutTable_le hperm (nodes_layout_le hperm fuel) (nodes_pos h fuel)
          (nodes_scalar (by decide) fuel)
    | number x =>
      rw [layout]
      split_ifs <;> exact Nat.le_refl 1
    | _ => exact Nat.le_refl 1

/-- Where nothing of a table is lost, what is written takes more than half of its keys and values:
the keys of an array are left out. -/
theorem lt_nodes_layoutTable (hperm : env.sort.Permutes) {lay : LuaValue → Doc}
    {f : LuaValue → Nat} (hlay : ∀ e ∈ t.entries, ((lay e.1).Complete → f e.1 < 2 * (lay e.1).nodes) ∧
      ((lay e.2).Complete → f e.2 < 2 * (lay e.2).nodes))
    (hint : ∀ i : Nat, f (integer i) = 1) (hcont : t.Contiguous)
    (hc : (layoutTable env lay t).Complete) :
    1 + (t.entries.map fun e => f e.1 + f e.2).sum < 2 * (layoutTable env lay t).nodes := by
  obtain ⟨hsorted, hitems⟩ := (complete_layoutTable_iff hperm lay).mp hc
  by_cases hz : t.entries.length = 0
  · rw [layoutTable, if_pos hz, List.length_eq_zero_iff.mp hz]
    exact Nat.one_lt_two
  rw [layoutTable, if_neg hz]
  unfold LuaTable.items at hitems
  split_ifs at hitems ⊢ with ha
  · -- an array: its keys are integers, and count for one each
    have hmem : t.entries.Perm (arrayEntries 1 (t.elements 1 t.border)) := by
      rw [← LuaTable.indexEntries_eq]
      exact hcont.perm ha
    have hterm : ∀ e ∈ t.entries, f e.1 + f e.2 ≤ 2 * (lay e.2).nodes := by
      intro e he
      obtain ⟨j, _, _, hkey⟩ := mem_arrayEntries (hmem.mem_iff.mp he)
      have hval : e.2 ∈ t.elements 1 t.border := by
        rw [← map_snd_arrayEntries 1 (t.elements 1 t.border)]
        exact List.mem_map_of_mem (hmem.mem_iff.mp he)
      rw [ha] at hitems
      have hlt := (hlay e he).2 (hitems _ hval)
      rw [hkey, hint]
      omega
    have hsum := List.sum_le_sum hterm
    have hvalues := (hmem.map fun e => (lay e.2).nodes).sum_eq
    have helements : Doc.nodesItems ((t.elements 1 t.border).map lay) =
        ((arrayEntries 1 (t.elements 1 t.border)).map fun e => (lay e.2).nodes).sum := by
      conv_lhs => rw [← map_snd_arrayEntries 1 (t.elements 1 t.border)]
      rw [nodesItems_map, List.map_map]
      rfl
    rw [List.sum_map_mul_left, hvalues, ← helements] at hsum
    rw [Doc.nodes, ha]
    omega
  · -- a hash table: the sorted keys are those of the entries
    cases hks : t.sortedKeys env with
    | none => exact absurd hks (hsorted ha)
    | some ks =>
      have hterm : ∀ e ∈ t.entries, f e.1 + f e.2 ≤ 2 * ((lay e.1).nodes + (lay e.2).nodes) := by
        intro e he
        have hk := (hlay e he).1 (hitems _ (List.mem_flatMap.mpr ⟨e, he, by simp⟩))
        have hv := (hlay e he).2 (hitems _ (List.mem_flatMap.mpr ⟨e, he, by simp⟩))
        omega
      have hsum := List.sum_le_sum hterm
      have hkeys := sum_alternate (fun v => (lay v).nodes) (sortedKeys_perm hperm hks)
      rw [List.sum_map_mul_left, ← hkeys, ← nodesItems_map] at hsum
      show _ < 2 * (1 + Doc.nodesItems ((t.alternate ks).map lay))
      omega

/-- A complete layout of a value whose tables are contiguous has more than half as many values as
the value has nodes. -/
theorem lt_nodes_layout (hperm : env.sort.Permutes) : ∀ {fuel : Nat} {v : LuaValue},
    (∀ ref t, Reaches h v ref → h[ref]? = some t → t.Contiguous) →
    (layout env h fuel v).Complete → nodes h fuel v < 2 * (layout env h fuel v).nodes
  | 0, _, _, _ => Nat.one_lt_two
  | fuel + 1, v, hcont, hc => by
    cases v with
    | table ref =>
      rw [layout] at hc ⊢
      cases ht : h[ref]? with
      | none =>
        rw [nodes, ht]
        exact Nat.one_lt_two
      | some t =>
        rw [ht] at hc
        rw [nodes_table ht]
        -- every key and value is a node of its own, and what it reaches the table reaches
        refine lt_nodes_layoutTable hperm (fun e he => ⟨fun hk => ?_, fun hv => ?_⟩)
          (fun i => nodes_scalar (by simp [integer, LuaValue.type]) fuel)
          (hcont ref t ⟨ref, rfl, .refl⟩ ht) hc
        · exact lt_nodes_layout hperm (fun s u hs => hcont s u (Reaches.of_key ht he hs)) hk
        · exact lt_nodes_layout hperm (fun s u hs => hcont s u (Reaches.of_value ht he hs)) hv
    | number x =>
      rw [layout]
      split_ifs <;> exact Nat.one_lt_two
    | _ => exact Nat.one_lt_two

end

end LuaBinaryTable
