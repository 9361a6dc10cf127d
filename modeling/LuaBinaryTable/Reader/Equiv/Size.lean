import LuaBinaryTable.Document.Equiv.Cut
import LuaBinaryTable.Document.Equiv.Size
import LuaBinaryTable.Reader.Equiv.Trace

/-!
# How much a document builds

Every value that is read takes a byte of the input at least (`nodes_readDoc`), and makes one table
and one entry at most (`within_materialise`).  So a document builds no more tables, and no more
entries, than it has bytes, whatever sizes it declares: `parseBinaryTable_size`.
-/

namespace LuaBinaryTable

/-! ### The values in the bytes -/

theorem nodes_poolDoc (t : LuaTable) (size i : Nat) : (poolDoc t size i).nodes = 1 := by
  unfold poolDoc
  split_ifs
  · split <;> rfl
  · rfl

theorem nodes_build {pool : Nat → Doc} (hpool : ∀ i, (pool i).nodes = 1) (type : BinaryType)
    (payload : Bytes) (ds : List Doc) :
    (type.build pool payload ds).nodes ≤ 1 + Doc.nodesItems ds := by
  cases type with
  | tString8 | tString16 | tString32 =>
    refine le_trans (le_of_eq (hpool (leNat payload))) (Nat.le_add_right _ _)
  | tArray8 | tArray16 | tArray32 | tTable8 | tTable16 | tTable32 => exact le_rfl
  | _ => exact Nat.le_add_right _ _

/-- The values that follow a tag are complete where the value of the tag is. -/
theorem complete_items {type : BinaryType} {pool : Nat → Doc} {payload : Bytes} {ds : List Doc}
    (hitems : type.items payload = 0 → ds = []) (hc : (type.build pool payload ds).Complete) :
    ∀ d ∈ ds, d.Complete := by
  cases type with
  | tArray8 | tArray16 | tArray32 | tTable8 | tTable16 | tTable32 =>
    exact Doc.stopsItems_eq_none.mp hc
  | _ =>
    rw [hitems rfl]
    exact fun d hd => absurd hd List.not_mem_nil

namespace BinaryReader

/-- Items take the bytes that each of them takes. -/
theorem nodesItems_readItems {rd : BinaryReader → Doc × BinaryReader}
    (hrd : ∀ r, (rd r).1.Complete → (rd r).1.nodes + (rd r).2.left ≤ r.left) :
    ∀ (n : Nat) (r : BinaryReader), (∀ d ∈ (readItems rd n r).1, d.Complete) →
      Doc.nodesItems (readItems rd n r).1 + (readItems rd n r).2.left ≤ r.left
  | 0, r, _ => by
    rw [readItems, Doc.nodesItems, Nat.zero_add]
  | n + 1, r, hc => by
    by_cases hfirst : (rd r).1.Complete
    · simp only [readItems, hfirst, if_true] at hc ⊢
      have hd := hrd r hfirst
      have hds := nodesItems_readItems hrd n (rd r).2 fun d hd => hc d (List.mem_cons_of_mem _ hd)
      rw [Doc.nodesItems]
      omega
    · simp only [readItems, hfirst, if_false] at hc
      exact absurd (hc _ (List.mem_singleton_self _)) hfirst

/-- Every value of a complete document takes a byte of the input. -/
theorem nodes_readDoc {pool : Nat → Doc} (hpool : ∀ i, (pool i).nodes = 1) :
    ∀ (fuel : Nat) (r : BinaryReader), (readDoc pool fuel r).1.Complete →
      (readDoc pool fuel r).1.nodes + (readDoc pool fuel r).2.left ≤ r.left
  | 0, _, hc => by cases hc
  | fuel + 1, r, hc => by
    by_cases hend : r.data.length ≤ r.p
    · rw [readDoc_of_end pool (Nat.succ_pos fuel) hend] at hc
      cases hc
    · simp only [readDoc] at hc ⊢
      cases htype : BinaryType.ofNat? r.readType.1 with
      | none =>
        rw [htype] at hc
        cases hc
      | some type =>
        rw [htype] at hc
        have hnone : type.items (r.readType.2.readNumber type.width).1 = 0 →
            (readItems (readDoc pool fuel) (type.items (r.readType.2.readNumber type.width).1)
              (r.readType.2.readNumber type.width).2).1 = [] := by
          intro hz
          rw [hz]
          rfl
        have hitems := nodesItems_readItems (nodes_readDoc hpool fuel) _ _
          (complete_items hnone hc)
        have hbuild := nodes_build hpool type (r.readType.2.readNumber type.width).1
          (readItems (readDoc pool fuel) (type.items (r.readType.2.readNumber type.width).1)
            (r.readType.2.readNumber type.width).2).1
        -- the byte of the tag pays for the value itself
        have htag : r.readType.2.left + 1 = r.left := by
          rw [readType_snd]
          unfold left
          dsimp only
          omega
        have hleft := left_readNumber type.width r.readType.2
        dsimp only at hitems hbuild ⊢
        omega

end BinaryReader

/-! ### The tables that are built -/

/-- The number of entries in a heap. -/
def entriesIn (h : List LuaTable) : Nat := (h.map fun t => t.entries.length).sum

/-- The heap `h'` has at most so many tables and entries more than `h`. -/
structure Within (h h' : List LuaTable) (tables entries : Nat) : Prop where
  length_le : h'.length ≤ h.length + tables
  entries_le : entriesIn h' ≤ entriesIn h + entries

theorem Within.trans {h h' h'' : List LuaTable} {a b c d : Nat} (h1 : Within h h' a b)
    (h2 : Within h' h'' c d) : Within h h'' (a + c) (b + d) where
  length_le := by
    have hle := h1.length_le
    have hle' := h2.length_le
    omega
  entries_le := by
    have hle := h1.entries_le
    have hle' := h2.entries_le
    omega

theorem Within.refl (h : List LuaTable) : Within h h 0 0 := ⟨le_rfl, le_rfl⟩

theorem Within.mono {h h' : List LuaTable} {a b c d : Nat} (hw : Within h h' a b) (hac : a ≤ c)
    (hbd : b ≤ d) : Within h h' c d :=
  ⟨hw.length_le.trans (Nat.add_le_add_left hac _), hw.entries_le.trans (Nat.add_le_add_left hbd _)⟩

theorem within_append (h : List LuaTable) (t : LuaTable) :
    Within h (h ++ [t]) 1 t.entries.length where
  length_le := by rw [List.length_append, List.length_singleton]
  entries_le := by
    unfold entriesIn
    rw [List.map_append, List.sum_append, List.map_singleton, List.sum_singleton]

theorem length_entries_set (t : LuaTable) (k v : LuaValue) :
    (t.set k v).entries.length ≤ t.entries.length + 1 := by
  unfold LuaTable.set
  split_ifs
  · exact Entries.length_set_le t.entries k v
  · exact Nat.le_succ _

/-- A store adds one entry at most. -/
theorem within_store (k v : LuaValue) : ∀ (h : List LuaTable) (ref : Nat),
    Within h (h.modify ref (·.set k v)) 0 1
  | [], ref => by
    rw [List.modify_nil]
    exact (Within.refl []).mono le_rfl (Nat.zero_le 1)
  | t :: h, 0 => by
    refine ⟨by rw [List.length_modify]; exact le_rfl, ?_⟩
    have hset := length_entries_set t k v
    rw [List.modify_zero_cons]
    unfold entriesIn
    rw [List.map_cons, List.sum_cons, List.map_cons, List.sum_cons]
    omega
  | t :: h, ref + 1 => by
    refine ⟨by rw [List.length_modify]; exact le_rfl, ?_⟩
    have hrest := (within_store k v h ref).entries_le
    rw [List.modify_succ_cons]
    unfold entriesIn at hrest ⊢
    rw [List.map_cons, List.sum_cons, List.map_cons, List.sum_cons]
    omega

namespace Doc

mutual

/-- Every value of a document makes one table at most, and every value but the outermost one
entry. -/
theorem within_materialise : ∀ (d : Doc) (h : List LuaTable),
    Within h (d.materialise h).2 d.nodes (d.nodes - 1)
  | nil, h | boolean _, h | integer _, h | double _, h | string _, h | stop _, h =>
    (Within.refl h).mono (Nat.zero_le _) (Nat.zero_le _)
  | emptyTable, h => within_append h LuaTable.empty
  | array size items, h => by
    have hfill := within_fillArray h.length items 0 (h ++ [LuaTable.empty])
    rw [materialise, nodes, Nat.add_sub_cancel_left]
    exact ((within_append h LuaTable.empty).trans hfill).mono le_rfl (Nat.zero_add _).le
  | table size items, h => by
    have hfill := within_fillTable h.length items (h ++ [LuaTable.empty])
    rw [materialise, nodes, Nat.add_sub_cancel_left]
    exact ((within_append h LuaTable.empty).trans hfill).mono le_rfl (Nat.zero_add _).le

theorem within_fillArray (ref : Nat) : ∀ (ds : List Doc) (i : Nat) (h : List LuaTable),
    Within h (fillArray ref ds i h) (nodesItems ds) (nodesItems ds)
  | [], _, h => Within.refl h
  | d :: ds, i, h => by
    have hpos := d.nodes_pos
    have hd := within_materialise d h
    have hstore := within_store (LuaBinaryTable.integer (toInt32 (toInt32 i + 1)))
      (d.materialise h).1 (d.materialise h).2 ref
    have hds := within_fillArray ref ds (i + 1) ((d.materialise h).2.modify ref
      (·.set (LuaBinaryTable.integer (toInt32 (toInt32 i + 1))) (d.materialise h).1))
    rw [fillArray, nodesItems]
    exact ((hd.trans hstore).trans hds).mono (by omega) (by omega)

theorem within_fillTable (ref : Nat) : ∀ (ds : List Doc) (h : List LuaTable),
    Within h (fillTable ref ds h) (nodesItems ds) (nodesItems ds)
  | [], h => Within.refl h
  | [_], h => (Within.refl h).mono (Nat.zero_le _) (Nat.zero_le _)
  | k :: v :: ds, h => by
    have hpos := k.nodes_pos
    have hk := within_materialise k h
    have hv := within_materialise v (k.materialise h).2
    have hstore := within_store (k.materialise h).1 (v.materialise (k.materialise h).2).1
      (v.materialise (k.materialise h).2).2 ref
    have hds := within_fillTable ref ds ((v.materialise (k.materialise h).2).2.modify ref
      (·.set (k.materialise h).1 (v.materialise (k.materialise h).2).1))
    rw [fillTable, nodesItems, nodesItems]
    exact (((hk.trans hv).trans hstore).trans hds).mono (by omega) (by omega)

end

end Doc

theorem length_fillPool : ∀ (strs : List Bytes) (i : Nat) (t : LuaTable),
    (fillPool i t strs).entries.length ≤ t.entries.length + strs.length
  | [], _, _ => le_rfl
  | s :: strs, i, t => by
    have hset := length_entries_set t (integer (toInt32 (toInt32 i + 1))) (.string s)
    have hrest := length_fillPool strs (i + 1)
      (t.set (integer (toInt32 (toInt32 i + 1))) (.string s))
    rw [fillPool, List.length_cons]
    omega

theorem length_le_poolSize (strs : List Bytes) : strs.length ≤ Doc.poolSize strs := by
  induction strs with
  | nil => exact le_rfl
  | cons s strs ih =>
    have hsize : stringLengthSize = 2 := rfl
    unfold Doc.poolSize at ih ⊢
    rw [List.map_cons, List.sum_cons, List.length_cons]
    omega

/-- A document of `n` bytes builds no more than `n - 7` tables and `n - 8` entries, those of the
pool included. -/
theorem Reader.parseBinaryTable_size {sizes : TableSizes} {S : List LuaValue} {h : List LuaTable}
    {T : Thread} {data : Bytes} {s : ParseState}
    (hr : parseBinaryTable sizes (.entry S h T) data = .returns (1, s)) :
    s.L.heap.length + 7 ≤ h.length + data.length ∧
      entriesIn s.L.heap + 8 ≤ entriesIn h + data.length := by
  have hdecodes := decodes_entry sizes S h T data
  rw [hr] at hdecodes
  rcases hdecodes with ⟨_, ho, strs, d, hbody, hL⟩ | ⟨h12, _⟩
  swap
  · cases h12
  have hheap : s.L.heap = (d.materialise (h ++ [poolTable strs])).2 := congrArg LuaState.heap hL
  have hc : d.Complete := by
    rw [hbody, Reading.outcome] at ho
    split_ifs at ho
    exact Doc.complete_of_outcome sizes d ho
  -- the body stands behind the head
  have hlen : 8 + Doc.poolSize strs + d.nodes ≤ data.length := by
    obtain ⟨hpool, body, rfl⟩ := exists_encodeHead hbody (eight_le_of_complete hbody hc)
    obtain ⟨_, rfl, _⟩ := Reading.body.inj ((readDocument_encodeHead hpool body).symm.trans hbody)
    have hnodes := BinaryReader.nodes_readDoc (nodes_poolDoc _ _) _ _ hc
    have hleft : BinaryReader.left ⟨Doc.encodeHead strs ++ body, (Doc.encodeHead strs).length⟩ =
        body.length := by
      rw [BinaryReader.left, List.length_append, Nat.add_sub_cancel_left]
    have htotal : (Doc.encodeHead strs ++ body).length = 8 + Doc.poolSize strs + body.length := by
      rw [List.length_append, Doc.length_encodeHead]
    rw [hleft] at hnodes
    exact (Nat.add_le_add_left ((Nat.le_add_right _ _).trans hnodes) _).trans_eq htotal.symm
  have hpooled := length_fillPool strs 0 LuaTable.empty
  have hstrs := length_le_poolSize strs
  have hpos := d.nodes_pos
  have hwithin := (within_append h (poolTable strs)).trans
    (Doc.within_materialise d (h ++ [poolTable strs]))
  have htables := hwithin.length_le
  have hentries := hwithin.entries_le
  have hempty : LuaTable.empty.entries.length = 0 := rfl
  rw [hheap]
  unfold poolTable at htables hentries ⊢
  omega

/-- Four empty tables in an array, in fourteen bytes. -/
theorem Reader.parseBinaryTable_size_tables :
    ∃ s, parseBinaryTable (fun _ _ => true) (.entry [] [] (.fresh .nil))
        [98, 116, 1, 0, 0, 0, 0, 0, 17, 4, 20, 20, 20, 20] = .returns (1, s) ∧
      s.L.heap.length + 7 ≤ 0 + 14 ∧ entriesIn s.L.heap + 8 ≤ entriesIn [] + 14 := by
  have hparse : ∃ s, parseBinaryTable (fun _ _ => true) (.entry [] [] (.fresh .nil))
      [98, 116, 1, 0, 0, 0, 0, 0, 17, 4, 20, 20, 20, 20] = .returns (1, s) := ⟨_, rfl⟩
  obtain ⟨s, hr⟩ := hparse
  exact ⟨s, hr, parseBinaryTable_size hr⟩

end LuaBinaryTable
