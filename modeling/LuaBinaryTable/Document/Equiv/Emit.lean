import LuaBinaryTable.Document.Encode
import LuaBinaryTable.Lua.Array

/-!
# What `emit` appends

`emit_eq`: from a pool that holds the strings `strs`, emitting a complete document leaves a pool
that holds `collect` and appends the bytes of `encode`.  The numbers that `encode` takes from the
finished pool are those handed out on the way, because a pool only grows at its end.
-/

namespace LuaBinaryTable

open LuaValue

/-! ### Numbers with their tags -/

/-- The bytes of an integer: the tag of its width and that many bytes. -/
theorem data_writeInteger (w : BinaryWriter) (i : Int) :
    (writeInteger w i).data = w.data ++ (integerType i).node i := by
  have h0 : ∀ t : BinaryType, t.width = 0 →
      (w.writeType t).data = w.data ++ t.node i := by
    intro t ht
    rw [BinaryWriter.data_writeType, BinaryType.node, ht]
    rfl
  have h : ∀ (t : BinaryType) (n : Nat), t.width = n →
      ((w.writeType t).writeNumber n i).data = w.data ++ t.node i := by
    intro t n ht
    rw [BinaryWriter.data_writeNumber, BinaryWriter.data_writeType, BinaryType.node, ht,
      List.append_assoc, List.singleton_append]
  unfold writeInteger integerType
  by_cases hneg : i < 0
  -- a negative number takes the narrowest signed width that holds it
  · simp only [hneg, if_true, show i ≠ 0 by omega, show i ≠ 1 by omega, if_false,
      show i ≤ 2 ^ 7 - 1 by omega, show i ≤ 2 ^ 15 - 1 by omega, show i ≤ 2 ^ 31 - 1 by omega,
      and_true]
    split_ifs
    · exact h .tInt8 1 rfl
    · exact h .tInt16 2 rfl
    · exact h .tInt32 4 rfl
    · exact h .tInt64 8 rfl
  · simp only [hneg, if_false, show -2 ^ 7 ≤ i by omega, show -2 ^ 15 ≤ i by omega,
      show -2 ^ 31 ≤ i by omega, true_and]
    split_ifs
    · exact h0 .tZero rfl
    · exact h0 .tOne rfl
    · exact h .tInt8 1 rfl
    · exact h .tInt16 2 rfl
    · exact h .tInt32 4 rfl
    · exact h .tInt64 8 rfl

/-- The first of four consecutive tags for a length. -/
def BinaryType.IsLengthBase (t : BinaryType) : Prop :=
  t = .tString0 ∨ t = .tArray0 ∨ t = .tTable0

theorem width_lengthType {t : BinaryType} (ht : t.IsLengthBase) (n : Nat) :
    (lengthType t n).width =
      if n = 0 then 0 else if n ≤ 2 ^ 8 - 1 then 1 else if n ≤ 2 ^ 16 - 1 then 2 else 4 := by
  unfold lengthType
  rcases ht with rfl | rfl | rfl <;> split_ifs <;> rfl

theorem data_writeLength (w : BinaryWriter) {t : BinaryType} (ht : t.IsLengthBase) (n : Nat) :
    (writeLength w t n).data = w.data ++ (lengthType t n).node n := by
  rw [BinaryType.node, width_lengthType ht]
  unfold writeLength lengthType
  split_ifs <;> simp [leBytesInt, leBytes]

theorem data_writeFloat (w : BinaryWriter) (x : Binary64) :
    (writeFloat w x).data = w.data ++ BinaryType.tDouble.node x.bits.toNat := by
  rw [writeFloat, BinaryWriter.data_writeNumber, BinaryWriter.data_writeType, List.append_assoc]
  rfl

/-! ### The pool -/

/-- The entries of the table from strings to numbers, the first number being `i`. -/
def numbered : Nat → List Bytes → Entries
  | _, [] => []
  | i, s :: ss => (.string s, integer i) :: numbered (i + 1) ss

theorem numbered_append (i : Nat) (ss : List Bytes) (s : Bytes) :
    numbered i (ss ++ [s]) = numbered i ss ++ [(.string s, integer ↑(i + ss.length))] := by
  induction ss generalizing i with
  | nil => rfl
  | cons s' ss ih =>
    rw [List.cons_append, numbered, ih, numbered, List.length_cons, List.cons_append,
      Nat.add_assoc, Nat.add_comm 1]

@[simp] theorem length_numbered (i : Nat) (ss : List Bytes) : (numbered i ss).length = ss.length := by
  induction ss generalizing i with
  | nil => rfl
  | cons s ss ih => rw [numbered, List.length_cons, ih, List.length_cons]

theorem rawEqual_string (s s' : Bytes) : (string s).rawEqual (string s') = decide (s = s') := by
  simp [rawEqual]

theorem lookup_numbered (i : Nat) (ss : List Bytes) (s : Bytes) :
    (numbered i ss).lookup (.string s) =
      if s ∈ ss then integer ↑(i + ss.idxOf s) else .nil := by
  induction ss generalizing i with
  | nil => rfl
  | cons s' ss ih =>
    rw [numbered, Entries.lookup, rawEqual_string, ih]
    by_cases hs : s' = s
    · simp [hs]
    · rw [List.idxOf_cons_ne _ hs]
      simp only [hs, decide_false, Bool.false_eq_true, if_false, List.mem_cons, Ne.symm hs,
        false_or, Nat.add_assoc, Nat.add_comm 1]

/-- The table from numbers to strings is the inverse one. -/
theorem swap_numbered (i : Nat) (ss : List Bytes) :
    (numbered i ss).map Prod.swap = arrayEntries i (ss.map .string) := by
  induction ss generalizing i with
  | nil => rfl
  | cons s ss ih => rw [numbered, List.map_cons, ih, List.map_cons, arrayEntries, Prod.swap_prod_mk]

theorem mem_numbered {i : Nat} {ss : List Bytes} {s : Bytes} (hs : s ∈ ss) :
    (LuaValue.string s, integer ↑(i + ss.idxOf s)) ∈ numbered i ss := by
  induction ss generalizing i with
  | nil => cases hs
  | cons s' ss ih =>
    rw [numbered]
    by_cases heq : s' = s
    · subst heq
      simp
    · have hnext : i + (ss.idxOf s + 1) = i + 1 + ss.idxOf s := by omega
      rw [List.idxOf_cons_ne _ heq, hnext]
      exact List.mem_cons_of_mem _ (ih ((List.mem_cons.mp hs).resolve_left (Ne.symm heq)))

/-- The pool holds the strings `strs`, numbered from 1 on in their order. -/
structure Pool.Holds (pool : Pool) (strs : List Bytes) : Prop where
  nodup : strs.Nodup
  nonempty : [] ∉ strs
  size_eq : pool.size = strs.length
  cacheSize_eq : pool.cacheSize = (strs.map List.length).sum
  handle : pool.handle.entries = numbered 1 strs
  index2string : pool.index2string.entries = arrayEntries 1 (strs.map .string)

namespace Pool.Holds

variable {pool : Pool} {strs : List Bytes}

theorem start : Pool.empty.Holds [] where
  nodup := List.nodup_nil
  nonempty := List.not_mem_nil
  size_eq := rfl
  cacheSize_eq := rfl
  handle := rfl
  index2string := rfl

theorem get_handle (hp : pool.Holds strs) (s : Bytes) :
    pool.handle.get (.string s) = if s ∈ strs then integer ↑(Doc.stringIndex strs s) else .nil := by
  rw [LuaTable.get, hp.handle, lookup_numbered, Doc.stringIndex, Nat.add_comm]

theorem isNew_iff (hp : pool.Holds strs) (s : Bytes) : pool.IsNew s ↔ s ∉ strs := by
  rw [Pool.IsNew, hp.get_handle]
  split_ifs with hs <;> simp [hs, integer]

theorem length_lt (hp : pool.Holds strs) : strs.length < 2 ^ 31 := by
  have := pool.handle.length_lt
  rwa [hp.handle, length_numbered] at this

theorem get_index2string (hp : pool.Holds strs) {pre post : List Bytes} {s : Bytes}
    (h : strs = pre ++ s :: post) :
    pool.index2string.get (integer ↑(pre.length + 1)) = .string s := by
  have hlen := hp.length_lt
  have hle : pre.length < strs.length := by rw [h]; simp
  rw [LuaTable.get_integer hp.index2string (by omega), h]
  simp

/-- The number of a string in the pool is found again. -/
theorem indexOf_eq (hp : pool.Holds strs) {s : Bytes} (hs : s ∈ strs) :
    pool.indexOf s = Doc.stringIndex strs s := by
  have hlt := List.idxOf_lt_length_of_mem hs
  have hlen := hp.length_lt
  rw [Pool.indexOf, hp.get_handle, if_pos hs]
  simp only [integer, Doc.stringIndex]
  rw [Binary64.trunc_ofInt (by omega), Int.toNat_natCast]

/-- A new string comes to the end of the pool. -/
theorem store (hp : pool.Holds strs) {s : Bytes} (hne : s ≠ []) (hs : s ∉ strs)
    (hlen : strs.length + 1 < 2 ^ 31) :
    (pool.store s).2.Holds (strs ++ [s]) ∧ (pool.store s).1 = Doc.stringIndex (strs ++ [s]) s := by
  have hnew : pool.IsNew s := (hp.isNew_iff s).mpr hs
  have hkey : (integer ↑(pool.size + 1)).isKey = true :=
    isKey_integer (by rw [hp.size_eq]; omega)
  -- the number is new, so both tables get an entry at their end
  have hget : pool.index2string.get (integer ↑(pool.size + 1)) = .nil := by
    rw [hp.size_eq, LuaTable.get_integer hp.index2string (by omega),
      List.getElem?_eq_none (by simp)]
    rfl
  simp only [Pool.store, hnew, if_true]
  refine ⟨⟨?_, ?_, ?_, ?_, ?_, ?_⟩, ?_⟩
  · exact List.nodup_append.mpr ⟨hp.nodup, List.nodup_singleton s, by
      rintro a ha b hb rfl
      exact hs (List.mem_singleton.mp hb ▸ ha)⟩
  · simpa [hp.nonempty] using hne.symm
  · simp [hp.size_eq]
  · simp [hp.cacheSize_eq]
  · rw [LuaTable.entries_set_of_get_eq_nil _ rfl hnew (by simp [integer])
      (by rw [hp.handle, length_numbered]; exact hlen), hp.handle, numbered_append, hp.size_eq,
      Nat.add_comm 1]
  · rw [LuaTable.entries_set_of_get_eq_nil _ hkey hget (by simp)
      (by rw [hp.index2string, length_arrayEntries, List.length_map]; exact hlen),
      hp.index2string, List.map_append, arrayEntries_append, hp.size_eq, List.length_map,
      Nat.add_comm 1]
    rfl
  · rw [Doc.stringIndex, List.idxOf_append_of_notMem hs, hp.size_eq]
    simp

end Pool.Holds

/-! ### Emitting -/

namespace Doc

mutual

/-- A pool only grows at its end. -/
theorem prefix_collect : ∀ (d : Doc) (seen : List Bytes), seen <+: d.collect seen
  | string s, seen => by
    rw [collect]
    split_ifs
    · exact List.prefix_refl seen
    · exact List.prefix_append seen [s]
  | array _ items, seen => prefix_collectItems items seen
  | table _ items, seen => prefix_collectItems items seen
  | nil, seen | boolean _, seen | integer _, seen | double _, seen | emptyTable, seen
  | stop _, seen => List.prefix_refl seen

theorem prefix_collectItems : ∀ (ds : List Doc) (seen : List Bytes), seen <+: collectItems ds seen
  | [], seen => List.prefix_refl seen
  | d :: ds, seen => (prefix_collect d seen).trans (prefix_collectItems ds (d.collect seen))

end

/-- A string keeps its number while the pool grows. -/
theorem stringIndex_of_prefix {strs pool : List Bytes} (h : strs <+: pool) {s : Bytes}
    (hs : s ∈ strs) : stringIndex pool s = stringIndex strs s := by
  obtain ⟨t, rfl⟩ := h
  rw [stringIndex, List.idxOf_append_of_mem hs, stringIndex]

mutual

/-- Emitting a complete document extends the pool by its strings and the output by its bytes, as
they are for every pool that this one grows to. -/
theorem emit_eq {pool : List Bytes} (hlen : pool.length < 2 ^ 31) :
    ∀ (d : Doc) (e : EmitState) (strs : List Bytes), d.Complete → e.pool.Holds strs →
      d.collect strs <+: pool →
    (d.emit e).pool.Holds (d.collect strs) ∧
      (d.emit e).stream.data = e.stream.data ++ d.encode pool
  | nil, e, strs, _, hp, _ => ⟨hp, by rw [emit, BinaryWriter.data_writeType]; rfl⟩
  | boolean b, e, strs, _, hp, _ => ⟨hp, by
    rw [emit, BinaryWriter.data_writeType]
    cases b <;> rfl⟩
  | integer i, e, strs, _, hp, _ => ⟨hp, data_writeInteger _ i⟩
  | double x, e, strs, _, hp, _ => ⟨hp, data_writeFloat _ x⟩
  | string s, e, strs, _, hp, hpre => by
    rw [collect] at hpre ⊢
    rw [emit, encode]
    by_cases hs : s = []
    · simp only [hs, true_or, if_true, List.length_nil]
      exact ⟨hp, by rw [BinaryWriter.data_writeType]; rfl⟩
    · have hl : s.length ≠ 0 := fun h => hs (List.length_eq_zero_iff.mp h)
      have hbase : BinaryType.tString0.IsLengthBase := Or.inl rfl
      simp only [hs, hl, false_or, if_false, data_writeLength _ hbase] at hpre ⊢
      -- a string that is stored already keeps its number, a new one gets the next
      by_cases hmem : s ∈ strs
      · simp only [hmem, if_true] at hpre ⊢
        have hstore : e.pool.store s = (e.pool.indexOf s, e.pool) :=
          if_neg fun hn => (hp.isNew_iff s).mp hn hmem
        rw [hstore, hp.indexOf_eq hmem, stringIndex_of_prefix hpre hmem]
        exact ⟨hp, rfl⟩
      · simp only [hmem, if_false] at hpre ⊢
        have hle := hpre.length_le
        rw [List.length_append, List.length_singleton] at hle
        obtain ⟨h1, h2⟩ := hp.store hs hmem (by omega)
        rw [h2, stringIndex_of_prefix hpre (by simp)]
        exact ⟨h1, rfl⟩
  | emptyTable, e, strs, _, hp, _ => ⟨hp, by rw [emit, BinaryWriter.data_writeType]; rfl⟩
  | array size items, e, strs, hc, hp, hpre => by
    have hbase : BinaryType.tArray0.IsLengthBase := Or.inr (Or.inl rfl)
    obtain ⟨h1, h2⟩ := emitItems_eq hlen items
      { e with stream := writeLength e.stream .tArray0 size } strs (stopsItems_eq_none.mp hc) hp
      hpre
    refine ⟨h1, ?_⟩
    rw [emit, h2, data_writeLength _ hbase, encode, List.append_assoc]
  | table size items, e, strs, hc, hp, hpre => by
    have hbase : BinaryType.tTable0.IsLengthBase := Or.inr (Or.inr rfl)
    obtain ⟨h1, h2⟩ := emitItems_eq hlen items
      { e with stream := writeLength e.stream .tTable0 size } strs (stopsItems_eq_none.mp hc) hp
      hpre
    refine ⟨h1, ?_⟩
    rw [emit, h2, data_writeLength _ hbase, encode, List.append_assoc]
  | stop _, _, _, hc, _, _ => by cases hc

theorem emitItems_eq {pool : List Bytes} (hlen : pool.length < 2 ^ 31) :
    ∀ (ds : List Doc) (e : EmitState) (strs : List Bytes), (∀ d ∈ ds, d.Complete) →
      e.pool.Holds strs → collectItems ds strs <+: pool →
    (emitItems ds e).pool.Holds (collectItems ds strs) ∧
      (emitItems ds e).stream.data = e.stream.data ++ encodeItems pool ds
  | [], e, strs, _, hp, _ => ⟨hp, by rw [emitItems, encodeItems, List.append_nil]⟩
  | d :: ds, e, strs, hc, hp, hpre => by
    have hd := hc d (List.mem_cons_self ..)
    rw [collectItems] at hpre ⊢
    obtain ⟨h1, h2⟩ := emit_eq hlen d e strs hd hp ((prefix_collectItems ds _).trans hpre)
    obtain ⟨h3, h4⟩ := emitItems_eq hlen ds (d.emit e) (d.collect strs)
      (fun d' h' => hc d' (List.mem_cons_of_mem _ h')) h1 hpre
    rw [emitItems, if_pos hd]
    exact ⟨h3, by rw [h4, h2, encodeItems, List.append_assoc]⟩

end

/-- The strings of the pool, written one after the other. -/
theorem data_writePool {pool : Pool} {strs : List Bytes} (hp : pool.Holds strs) :
    ∀ (pre post : List Bytes) (w : BinaryWriter), strs = pre ++ post →
      (writePool pool post.length (pre.length + 1) w).data = w.data ++ encodePool post
  | pre, [], w, _ => by rw [List.length_nil, writePool, encodePool, List.append_nil]
  | pre, s :: post, w, h => by
    have hget := hp.get_index2string h
    have hrec := data_writePool hp (pre ++ [s]) post
      ((w.writeNumber stringLengthSize s.length).writeBytes s) (by simp [h])
    rw [List.length_append, List.length_singleton] at hrec
    simp only [List.length_cons, writePool, hget]
    rw [hrec, BinaryWriter.data_writeBytes, BinaryWriter.data_writeNumber, encodePool]
    simp only [List.append_assoc]

/-- The file of a complete document with fewer than `2^31` strings. -/
theorem file_eq {d : Doc} (hc : d.Complete) (hlen : (d.collect []).length < 2 ^ 31) :
    d.file = d.encodeFile := by
  obtain ⟨hp, hs⟩ := emit_eq hlen d .start [] hc .start (List.prefix_refl _)
  have hpool := fun w => data_writePool hp [] (d.collect []) w rfl
  rw [List.length_nil, Nat.zero_add] at hpool
  have hbody : (d.emit .start).stream.data = d.encode (d.collect []) := hs
  simp only [file, stream, encodeFile, BinaryWriter.data_writeBytes, hpool, hbody,
    BinaryWriter.data_writeNumber, BinaryWriter.data_reserve, BinaryWriter.data_empty, hp.size_eq,
    List.nil_append]

end Doc

end LuaBinaryTable
