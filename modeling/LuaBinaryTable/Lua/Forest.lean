import LuaBinaryTable.Lua.Heap
import LuaBinaryTable.Lua.Reachable

/-!
# Heaps that are forests

In a forest each table holds tables behind it only, and no table is held twice.  So no value in it
is cyclic, and none shares a table with another (`Forest.acyclic`).  A forest stays one when
another is built behind it (`Forest.extend`), and when a table that nothing holds is stored in its
first one (`Forest.store`).
-/

namespace LuaBinaryTable

/-- The table that a value is. -/
def LuaValue.refs : LuaValue → List Nat
  | .table ref => [ref]
  | _ => []

theorem LuaValue.mem_refs {v : LuaValue} {s : Nat} : s ∈ v.refs ↔ v = .table s := by
  cases v <;> simp [LuaValue.refs, eq_comm]

theorem LuaValue.nodup_refs (v : LuaValue) : v.refs.Nodup := by
  cases v <;> simp [LuaValue.refs]

/-- The tables among the keys and values of entries. -/
def Entries.refs (es : Entries) : List Nat := es.flatMap fun e => e.1.refs ++ e.2.refs

/-- The tables that a table holds. -/
def LuaTable.refs (t : LuaTable) : List Nat := t.entries.refs

@[simp] theorem LuaTable.refs_empty : LuaTable.empty.refs = [] := rfl

theorem Entries.count_refs_cons (e : LuaValue × LuaValue) (es : Entries) (s : Nat) :
    (Entries.refs (e :: es)).count s =
      e.1.refs.count s + e.2.refs.count s + (Entries.refs es).count s := by
  rw [Entries.refs, List.flatMap_cons, List.count_append, List.count_append]
  rfl

/-- An update adds nothing but the key and the value. -/
theorem Entries.count_refs_set (es : Entries) (k v : LuaValue) (s : Nat) :
    (Entries.refs (Entries.set es k v)).count s ≤
      (Entries.refs es).count s + (k.refs ++ v.refs).count s := by
  induction es with
  | nil =>
    rw [Entries.set]
    split_ifs
    · exact Nat.zero_le _
    · rw [Entries.count_refs_cons, List.count_append]
      exact le_of_eq (Nat.add_comm _ _)
  | cons e es ih =>
    rw [List.count_append] at ih ⊢
    rw [Entries.set, Entries.count_refs_cons e]
    split_ifs
    · omega
    · rw [Entries.count_refs_cons]
      dsimp only
      omega
    · rw [Entries.count_refs_cons]
      omega

theorem LuaTable.count_refs_set (t : LuaTable) (k v : LuaValue) (s : Nat) :
    (t.set k v).refs.count s ≤ t.refs.count s + (k.refs ++ v.refs).count s := by
  unfold LuaTable.set
  split_ifs
  · exact Entries.count_refs_set t.entries k v s
  · exact Nat.le_add_right _ _

/-- The tables that the tables from `base` on hold. -/
def heldFrom (base : Nat) (h : List LuaTable) : List Nat := (h.drop base).flatMap LuaTable.refs

/-- From `base` on, each table holds tables behind it only, and no table is held twice. -/
structure Forest (base : Nat) (h : List LuaTable) : Prop where
  later : ∀ r t, base ≤ r → h[r]? = some t → ∀ s ∈ t.refs, r < s ∧ s < h.length
  once : (heldFrom base h).Nodup

theorem mem_heldFrom {base : Nat} {h : List LuaTable} {s : Nat} :
    s ∈ heldFrom base h ↔ ∃ r t, base ≤ r ∧ h[r]? = some t ∧ s ∈ t.refs := by
  rw [heldFrom, List.mem_flatMap]
  constructor
  · rintro ⟨t, ht, hs⟩
    obtain ⟨i, hi⟩ := List.getElem?_of_mem ht
    rw [List.getElem?_drop] at hi
    exact ⟨base + i, t, Nat.le_add_right _ _, hi, hs⟩
  · rintro ⟨r, t, hr, ht, hs⟩
    refine ⟨t, List.mem_of_getElem? (i := r - base) ?_, hs⟩
    rwa [List.getElem?_drop, Nat.add_sub_cancel' hr]

namespace Forest

variable {base : Nat} {h h' : List LuaTable}

/-- There are no tables from the end on. -/
theorem of_length_le (hle : h.length ≤ base) : Forest base h where
  later r t hr ht := by
    have := (List.getElem?_eq_some_iff.mp ht).1
    omega
  once := by
    rw [heldFrom, List.drop_eq_nil_of_le hle]
    exact List.nodup_nil

theorem lt_of_mem (hf : Forest base h) {s : Nat} (hs : s ∈ heldFrom base h) :
    base < s ∧ s < h.length := by
  obtain ⟨r, t, hr, ht, hs⟩ := mem_heldFrom.mp hs
  have := hf.later r t hr ht s hs
  omega

/-! ### Building behind -/

theorem heldFrom_grows (hg : Grows h h') (hle : base ≤ h.length) :
    heldFrom base h' = heldFrom base h ++ heldFrom h.length h' := by
  obtain ⟨ts, rfl⟩ := hg.exists_append
  rw [heldFrom, heldFrom, heldFrom, List.drop_append_of_le_length hle, List.flatMap_append,
    List.drop_left]

/-- What is built behind a forest extends it. -/
theorem extend (hf : Forest base h) (hle : base ≤ h.length) (hg : Grows h h')
    (hf' : Forest h.length h') : Forest base h' where
  later r t hr ht s hs := by
    rcases Nat.lt_or_ge r h.length with hlt | hge
    · rw [hg.old r hlt] at ht
      exact (hf.later r t hr ht s hs).imp_right fun hs => hs.trans_le hg.length_le
    · exact hf'.later r t hge ht s hs
  once := by
    rw [heldFrom_grows hg hle]
    refine List.nodup_append'.mpr ⟨hf.once, hf'.once, fun s hs hs' => ?_⟩
    have := (hf.lt_of_mem hs).2
    have := (hf'.lt_of_mem hs').1
    omega

/-- What is built behind a forest does not hold the first new table, nor one before. -/
theorem not_mem_extend (hle : base ≤ h.length) (hg : Grows h h')
    (hf' : Forest h.length h') {s : Nat} (hs : s ≤ h.length) (hn : s ∉ heldFrom base h) :
    s ∉ heldFrom base h' := by
  rw [heldFrom_grows hg hle, List.mem_append, not_or]
  refine ⟨hn, fun hs' => ?_⟩
  have := (hf'.lt_of_mem hs').1
  omega

/-! ### Storing -/

/-- A key and a value that nothing holds are stored in the first table. -/
theorem store (hf : Forest base h) (hlt : base < h.length) {k v : LuaValue}
    (hnodup : (k.refs ++ v.refs).Nodup)
    (hnew : ∀ s ∈ k.refs ++ v.refs, base < s ∧ s < h.length ∧ s ∉ heldFrom base h) :
    Forest base (h.modify base (·.set k v)) := by
  have hdrop : heldFrom base h = h[base].refs ++ heldFrom (base + 1) h := by
    rw [heldFrom, List.drop_eq_getElem_cons hlt, List.flatMap_cons]
    rfl
  have hdrop' : heldFrom base (h.modify base (·.set k v)) =
      (h[base].set k v).refs ++ heldFrom (base + 1) h := by
    rw [heldFrom, List.drop_modify_of_ge _ _ _ _ le_rfl, Nat.sub_self,
      List.drop_eq_getElem_cons hlt]
    rfl
  constructor
  · intro r t hr ht s hs
    rw [List.length_modify]
    by_cases hbase : base = r
    · subst hbase
      rw [List.getElem?_modify_eq, List.getElem?_eq_getElem hlt] at ht
      obtain rfl := Option.some.inj ht
      have hcount := h[base].count_refs_set k v s
      have hpos : 0 < (h[base].set k v).refs.count s := List.count_pos_iff.mpr hs
      -- a reference of the first table is one of the new ones or was there before
      rcases Nat.eq_zero_or_pos (h[base].refs.count s) with hzero | hpos'
      · have hmem : s ∈ k.refs ++ v.refs := List.count_pos_iff.mp (by omega)
        exact ⟨(hnew s hmem).1, (hnew s hmem).2.1⟩
      · exact hf.later base _ le_rfl (List.getElem?_eq_getElem hlt) s (List.count_pos_iff.mp hpos')
    · rw [List.getElem?_modify_ne _ _ hbase] at ht
      exact hf.later r t hr ht s hs
  -- counted: the new references are held nowhere else, the old ones not more often
  · rw [List.nodup_iff_count_le_one]
    intro s
    have honce := List.nodup_iff_count_le_one.mp hf.once s
    have hcount := h[base].count_refs_set k v s
    have hkv := List.nodup_iff_count_le_one.mp hnodup s
    rw [hdrop, List.count_append] at honce
    rw [hdrop', List.count_append]
    by_cases hmem : s ∈ k.refs ++ v.refs
    · have hzero := List.count_eq_zero_of_not_mem (hnew s hmem).2.2
      rw [hdrop, List.count_append] at hzero
      omega
    · have hzero := List.count_eq_zero_of_not_mem hmem
      omega

/-! ### Values of a forest -/

/-- What a table of a forest holds. -/
theorem later_entry (hf : Forest base h) {r : Nat} {t : LuaTable} (hr : base ≤ r)
    (ht : h[r]? = some t) {e : LuaValue × LuaValue} (he : e ∈ t.entries) :
    ∀ s ∈ e.1.refs ++ e.2.refs, r < s ∧ s < h.length := fun s hs =>
  hf.later r t hr ht s (List.mem_flatMap.mpr ⟨e, he, hs⟩)

/-- A value of a forest has no cycle. -/
theorem acyclic (hf : Forest base h) {v : LuaValue} (hv : ∀ s ∈ v.refs, base ≤ s ∧ s < h.length) :
    Acyclic h v := by
  suffices h : ∀ n r, h.length - r ≤ n → base ≤ r → r < h.length → Acyclic h (.table r) by
    cases v with
    | table r =>
      obtain ⟨hbase, hlt⟩ := hv r (List.mem_singleton_self r)
      exact h _ r le_rfl hbase hlt
    | _ => exact .scalar (by simp [LuaValue.type])
  intro n
  induction n with
  | zero =>
    intro r hn _ hlt
    omega
  | succ n ih =>
    intro r hn hbase hlt
    have ht := List.getElem?_eq_getElem hlt
    -- the tables behind this one are closer to the end
    have hvalue : ∀ w : LuaValue, (∀ s ∈ w.refs, r < s ∧ s < h.length) → Acyclic h w := by
      intro w hw
      cases w with
      | table s =>
        obtain ⟨hrs, hs⟩ := hw s (List.mem_singleton_self s)
        exact ih s (by omega) (by omega) hs
      | _ => exact .scalar (by simp [LuaValue.type])
    refine .table ht (fun e he => ?_) fun e he => ?_
    · exact hvalue e.1 fun s hs => hf.later_entry hbase ht he s (List.mem_append_left _ hs)
    · exact hvalue e.2 fun s hs => hf.later_entry hbase ht he s (List.mem_append_right _ hs)

theorem mem_refs_of_points {r s : Nat} (hp : Points h r s) :
    ∃ t, h[r]? = some t ∧ s ∈ t.refs := by
  obtain ⟨t, ht, e, he, hs⟩ := hp
  refine ⟨t, ht, List.mem_flatMap.mpr ⟨e, he, List.mem_append.mpr ?_⟩⟩
  exact hs.imp LuaValue.mem_refs.mpr LuaValue.mem_refs.mpr

/-- What a table of a forest leads to lies behind it. -/
theorem le_of_reaches (hf : Forest base h) {v : LuaValue} (hv : ∀ s ∈ v.refs, base ≤ s) {r : Nat}
    (hr : Reaches h v r) : base ≤ r := by
  obtain ⟨r₀, rfl, hr⟩ := hr
  induction hr with
  | refl => exact hv r₀ (List.mem_singleton_self r₀)
  | tail _ hp ih =>
    obtain ⟨t, ht, hs⟩ := mem_refs_of_points hp
    have := (hf.later _ t ih ht _ hs).1
    omega

end Forest

end LuaBinaryTable
