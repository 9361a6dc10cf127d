import LuaBinaryTable.Lua.Forest
import LuaBinaryTable.Reader.Equiv.Clean
import LuaBinaryTable.Writer.Equiv.DumpTable

/-!
# What is decoded is a tree

Whatever the bytes are, the tables that the decoder builds are a forest (`forest_materialise`): a
table is filled with values that were built for it.  So what `parseBinaryTable` returns is a tree of
new tables, and writing or printing it comes to an end (`Reader.parseBinaryTable_forest`).
-/

namespace LuaBinaryTable

open Doc Reader

/-- The value is no table, or the one at `n`. -/
def RootAt (n : Nat) (h : List LuaTable) (v : LuaValue) : Prop := ∀ s ∈ v.refs, s = n ∧ n < h.length

theorem rootAt_scalar {n : Nat} {h : List LuaTable} {v : LuaValue} (hv : v.refs = []) :
    RootAt n h v := by
  intro s hs
  rw [hv] at hs
  cases hs

/-- A new table that is filled. -/
theorem rootAt_new {h h' : List LuaTable} (hg : GrowsExcept h.length (h ++ [LuaTable.empty]) h') :
    RootAt h.length h' (.table h.length) := by
  intro s hs
  refine ⟨List.mem_singleton.mp hs, ?_⟩
  have := hg.length_le
  rw [List.length_append] at this
  exact this

theorem forest_new (h : List LuaTable) : Forest h.length (h ++ [LuaTable.empty]) where
  later r t hr ht s hs := by
    rw [List.getElem?_append_right hr] at ht
    obtain rfl := List.mem_singleton.mp (List.mem_of_getElem? ht)
    cases hs
  once := by
    rw [heldFrom, List.drop_left]
    exact List.nodup_nil

mutual

/-- What is built for a document is a forest behind the heap. -/
theorem forest_materialise : ∀ (d : Doc) (h : List LuaTable),
    Forest h.length (d.materialise h).2 ∧ RootAt h.length (d.materialise h).2 (d.materialise h).1
  | nil, h | boolean _, h | Doc.integer _, h | double _, h | string _, h | stop _, h =>
    ⟨.of_length_le le_rfl, rootAt_scalar rfl⟩
  | emptyTable, h => ⟨forest_new h, rootAt_new (GrowsExcept.refl _ _)⟩
  | array _ items, h =>
    ⟨forest_fillArray h.length items 0 _ (by simp) (forest_new h),
      rootAt_new (grows_fillArray h.length items 0 _)⟩
  | table _ items, h =>
    ⟨forest_fillTable h.length items _ (by simp) (forest_new h),
      rootAt_new (grows_fillTable h.length items _)⟩

theorem forest_fillArray (ref : Nat) : ∀ (ds : List Doc) (i : Nat) (h : List LuaTable),
    ref < h.length → Forest ref h → Forest ref (fillArray ref ds i h)
  | [], _, _, _, hf => hf
  | d :: ds, i, h, hlt, hf => by
    have hg := grows_materialise d h
    obtain ⟨hf', hroot⟩ := forest_materialise d h
    have hlt' := hlt.trans_le hg.length_le
    refine forest_fillArray ref ds (i + 1) _ (by rw [List.length_modify]; exact hlt') ?_
    refine (hf.extend hlt.le hg hf').store hlt' (LuaValue.nodup_refs _) fun s hs => ?_
    obtain ⟨rfl, hbound⟩ := hroot s hs
    exact ⟨hlt, hbound, Forest.not_mem_extend hlt.le hg hf' le_rfl fun hm =>
      absurd (hf.lt_of_mem hm).2 (lt_irrefl _)⟩

/-- Entries go into the first table of a forest, and what they hold is behind it. -/
theorem forest_fillTable (ref : Nat) : ∀ (ds : List Doc) (h : List LuaTable),
    ref < h.length → Forest ref h → Forest ref (fillTable ref ds h)
  | [], _, _, hf => hf
  | [_], _, _, hf => hf
  | k :: v :: ds, h, hlt, hf => by
    have hg := grows_materialise k h
    obtain ⟨hfk, hrootk⟩ := forest_materialise k h
    have hlt' := hlt.trans_le hg.length_le
    have hg' := grows_materialise v (k.materialise h).2
    obtain ⟨hfv, hrootv⟩ := forest_materialise v (k.materialise h).2
    have hlt'' := hlt'.trans_le hg'.length_le
    refine forest_fillTable ref ds _ (by rw [List.length_modify]; exact hlt'') ?_
    have hf' := hf.extend hlt.le hg hfk
    refine (hf'.extend hlt'.le hg' hfv).store hlt'' ?_ fun s hs => ?_
    · -- the key lies before the value
      refine List.nodup_append'.mpr ⟨LuaValue.nodup_refs _, LuaValue.nodup_refs _, fun s hs hs' => ?_⟩
      have hk := hrootk s hs
      have hv := hrootv s hs'
      omega
    · rcases List.mem_append.mp hs with hs | hs
      · obtain ⟨rfl, hbound⟩ := hrootk s hs
        refine ⟨hlt, hbound.trans_le hg'.length_le, ?_⟩
        refine Forest.not_mem_extend hlt'.le hg' hfv hbound.le ?_
        exact Forest.not_mem_extend hlt.le hg hfk le_rfl fun hm =>
          absurd (hf.lt_of_mem hm).2 (lt_irrefl _)
      · obtain ⟨rfl, hbound⟩ := hrootv s hs
        exact ⟨hlt', hbound, Forest.not_mem_extend hlt'.le hg' hfv le_rfl fun hm =>
          absurd (hf'.lt_of_mem hm).2 (lt_irrefl _)⟩

end

theorem refs_fillPool : ∀ (strs : List Bytes) (i : Nat) (t : LuaTable), t.refs = [] →
    (fillPool i t strs).refs = []
  | [], _, _, ht => ht
  | str :: strs, i, t, ht => by
    refine refs_fillPool strs (i + 1) _ (List.eq_nil_iff_forall_not_mem.mpr fun s hs => ?_)
    have hcount := t.count_refs_set (integer (toInt32 (toInt32 i + 1))) (.string str) s
    have hpos := List.count_pos_iff.mpr hs
    rw [ht] at hcount
    exact absurd (hpos.trans_le hcount) (lt_irrefl 0)

/-- The table of the pool holds no table. -/
theorem forest_pool (h : List LuaTable) (strs : List Bytes) :
    Forest h.length (h ++ [poolTable strs]) where
  later r t hr ht s hs := by
    rw [List.getElem?_append_right hr] at ht
    obtain rfl := List.mem_singleton.mp (List.mem_of_getElem? ht)
    rw [poolTable, refs_fillPool strs 0 _ LuaTable.refs_empty] at hs
    cases hs
  once := by
    rw [heldFrom, List.drop_left, List.flatMap_singleton, poolTable,
      refs_fillPool strs 0 _ LuaTable.refs_empty]
    exact List.nodup_nil

/-- The tables of a value that is built lie behind the heap. -/
theorem refs_materialise (d : Doc) (h : List LuaTable) :
    ∀ s ∈ (d.materialise h).1.refs, h.length ≤ s ∧ s < (d.materialise h).2.length := fun s hs => by
  obtain ⟨rfl, hlt⟩ := (forest_materialise d h).2 s hs
  exact ⟨le_rfl, hlt⟩

theorem acyclic_materialise (d : Doc) (h : List LuaTable) :
    Acyclic (d.materialise h).2 (d.materialise h).1 :=
  (forest_materialise d h).1.acyclic (refs_materialise d h)

/-- What `parseBinaryTable` returns for any bytes is a tree of new tables: each holds tables behind
it only, and none is held twice.  So it can be written and printed, which ends. -/
theorem Reader.parseBinaryTable_forest {env : Env} (hsort : env.sort.Rearranges)
    {sizes : TableSizes} {S : List LuaValue} {h : List LuaTable} {T : Thread}
    (hT : LibraryTable h T.tableLib) {data : Bytes} {s : ParseState}
    (hr : parseBinaryTable sizes (.entry S h T) data = .returns (1, s)) :
    ∃ v, s.L.stack = v :: S ∧ Grows h s.L.heap ∧ Forest h.length s.L.heap ∧
      (∀ r, Reaches s.L.heap v r → h.length ≤ r) ∧ Acyclic s.L.heap v ∧
      ∃ n, ∀ fuel, n ≤ fuel →
        (∃ file L, writeBinaryTable env fuel (.entry (v :: S) s.L.heap T) (-1) =
          .returns (file, L)) ∧
        ∀ maxIndent : Int, ∃ text L,
          dumpTable env fuel (.entry (v :: S) s.L.heap T) (-1) maxIndent = .returns (text, L) := by
  have hdecodes := decodes_entry sizes S h T data
  rw [hr] at hdecodes
  rcases hdecodes with ⟨_, _, strs, d, _, hL⟩ | ⟨h12, _⟩
  swap
  · cases h12
  have hheap : s.L.heap = (d.materialise (h ++ [poolTable strs])).2 := congrArg LuaState.heap hL
  have hgrow := grows_materialise d (h ++ [poolTable strs])
  obtain ⟨hf, _⟩ := forest_materialise d (h ++ [poolTable strs])
  have hrefs := refs_materialise d (h ++ [poolTable strs])
  have hlen : h.length ≤ (h ++ [poolTable strs]).length := by simp
  -- the table of the strings holds no table, so the value alone hangs behind it
  have hforest := (forest_pool h strs).extend hlen hgrow hf
  have hg := (Grows.append h [poolTable strs]).trans hgrow
  have ha := acyclic_materialise d (h ++ [poolTable strs])
  refine ⟨_, congrArg LuaState.stack hL, ?_⟩
  rw [hheap]
  refine ⟨hg, hforest, fun r hr => hforest.le_of_reaches (fun s hs => hlen.trans (hrefs s hs).1) hr,
    ha, ?_⟩
  have hidx := validIndex_top (d.materialise (h ++ [poolTable strs])).1 S
  rw [← valueAt_top (d.materialise (h ++ [poolTable strs])).1 S] at ha
  obtain ⟨m, hm⟩ := ha.exists_nested
  obtain ⟨n, d', _, hwrite⟩ := writeBinaryTable_returns hsort.permutes hidx ha T
  refine ⟨max m n, fun fuel hle => ⟨?_, fun maxIndent => ?_⟩⟩
  · obtain ⟨_, h', _, hr⟩ := hwrite fuel ((le_max_right m n).trans hle)
    exact ⟨_, _, hr⟩
  · exact dumpTable_returns hsort hidx (hT.grows hg)
      (hm.mono ((le_max_left m n).trans hle)) maxIndent

/-- A table with a table as its key and another one as the value. -/
theorem Reader.parseBinaryTable_forest_key :
    ∃ s, parseBinaryTable (fun _ _ => true) (.entry [] [diamondTable, stdTable] (.fresh (.table 1)))
        [98, 116, 1, 0, 0, 0, 0, 0, 21, 1, 20, 20] = .returns (1, s) ∧
      ∃ v, s.L.stack = [v] ∧ Grows [diamondTable, stdTable] s.L.heap ∧ Forest 2 s.L.heap ∧
        (∀ r, Reaches s.L.heap v r → 2 ≤ r) ∧ Acyclic s.L.heap v ∧
        ∃ n, ∀ fuel, n ≤ fuel →
          (∃ file L, writeBinaryTable .plain fuel (.entry [v] s.L.heap (.fresh (.table 1))) (-1) =
            .returns (file, L)) ∧
          ∀ maxIndent : Int, ∃ text L,
            dumpTable .plain fuel (.entry [v] s.L.heap (.fresh (.table 1))) (-1) maxIndent =
              .returns (text, L) := by
  have hparse : ∃ s, parseBinaryTable (fun _ _ => true)
      (.entry [] [diamondTable, stdTable] (.fresh (.table 1)))
          [98, 116, 1, 0, 0, 0, 0, 0, 21, 1, 20, 20] =
        .returns (1, s) := ⟨_, rfl⟩
  obtain ⟨s, hr⟩ := hparse
  exact ⟨s, hr, parseBinaryTable_forest insertionSort_rearranges (libraryTable_std _) hr⟩

end LuaBinaryTable
