import LuaBinaryTable.Document.Equiv.Encode
import LuaBinaryTable.Reader.Equiv.ParseBinaryTable
import LuaBinaryTable.Writer.Equiv.WriteBinaryTable

/-!
# The string pool, written and read

The writer's `StringTable` writes every string behind its length, in a field of two bytes.  The
reader's `StringTable` gets the strings back exactly where each length fits that field
(`poolSurvives_iff`); a string of `2^16` bytes or more leaves the reader out of step.
-/

namespace LuaBinaryTable

open LuaState

/-- Store strings one after the other, as `writeValue` does with a string on the top. -/
def StringTable.storeAll : List Bytes → StringTable → LuaState →
    Run LuaState (StringTable × LuaState)
  | [], st, L => return (st, L)
  | s :: ss, st, L => do
    let (_, st, L) ← st.storeString (L.pushlstring s) (-1)
    storeAll ss st (L.pop 1)

/-- The strings are stored in a new string table above the stack `S`, which is then `st`, and its
tables have taken them all. -/
structure Stored (strs : List Bytes) (S : List LuaValue) (h : List LuaTable) (T : Thread)
    (st : StringTable) (L : LuaState) : Prop where
  run : (StringTable.create (.entry S h T)).1.storeAll strs (StringTable.create (.entry S h T)).2 =
    .returns (st, L)
  all : (L.entriesAt st.index2string).length = strs.length

/-- The reader's string table gets the strings back from the bytes `bs` that follow `before`, and
stops in front of what follows them. -/
def PoolSurvives (sizes : TableSizes) (strs : List Bytes) (before bs body : Bytes) (L : LuaState)
    (tr : List ParseEvent) : Prop :=
  ∃ st s ref t,
    Reader.StringTable.parse sizes ⟨L, ⟨before ++ (bs ++ body), before.length⟩, tr⟩ =
        .returns (true, st, s) ∧
      s.reader = ⟨before ++ (bs ++ body), before.length + bs.length⟩ ∧
      st.size = strs.length ∧ s.L.index2adr st.handle = .table ref ∧ s.L.heap[ref]? = some t ∧
      t.entries = arrayEntries 1 (strs.map .string)

/-! ### Storing -/

section

variable {h₀ : List LuaTable} {hr ir : Nat}

/-- New strings come to the end of the pool, in their order. -/
theorem storeAll_eq (T : Thread) {S : List LuaValue} :
    ∀ (ss strs : List Bytes) {st : StringTable} {pool : Pool} {h : List LuaTable} {p : Nat},
      StringsAt h₀ hr ir st pool S h → pool.Holds strs → (strs ++ ss).Nodup → [] ∉ ss →
      (strs ++ ss).length < 2 ^ 31 → S.length ≤ p →
      ∃ st' pool' h' p', st.storeAll ss ⟨S, h, T, p⟩ = .returns (st', ⟨S, h', T, p'⟩) ∧
        StringsAt h₀ hr ir st' pool' S h' ∧ pool'.Holds (strs ++ ss) ∧ S.length ≤ p'
  | [], strs, st, pool, h, p, hp, hh, _, _, _, hle =>
    ⟨st, pool, h, p, rfl, hp, by rw [List.append_nil]; exact hh, hle⟩
  | s :: ss, strs, st, pool, h, p, hp, hh, hnd, hne, hlen, hle => by
    have hsplit : strs ++ s :: ss = strs ++ [s] ++ ss := by simp
    have hs : s ≠ [] := fun hs => hne (hs ▸ List.mem_cons_self ..)
    have hmem : s ∉ strs := fun hm =>
      (List.nodup_append.mp hnd).2.2 s hm s (List.mem_cons_self ..) rfl
    obtain ⟨st', h', hstore, hp', _, hhandle, hindex⟩ :=
      storeString_eq (hp.push (.string s)) (valueAt_top _ S) T (max p (S.length + 1))
    -- each string is new, so it gets the next number
    have hh' := (hh.store hs hmem (by
      rw [List.length_append, List.length_cons] at hlen
      omega)).1
    rw [hsplit] at hnd hlen ⊢
    rw [StringTable.storeAll, pushlstring, push_mk, hstore]
    exact storeAll_eq T ss (strs ++ [s])
      (hp'.of_push (hhandle ▸ hp.handle_le) (hindex ▸ hp.index_le)) hh' hnd
      (fun hm => hne (List.mem_cons_of_mem _ hm)) hlen
      (hle.trans ((le_max_left _ _).trans (le_max_left _ _)))

theorem entriesAt_index2string {st : StringTable} {pool : Pool} {S : List LuaValue}
    {h : List LuaTable} (hp : StringsAt h₀ hr ir st pool S h) (T : Thread) (p : Nat) :
    entriesAt ⟨S, h, T, p⟩ st.index2string = pool.index2string.entries :=
  entriesAt_mk hp.index_pos hp.index_slot hp.index_table p

end

/-- Every pool that a table can take is stored. -/
theorem exists_stored {strs : List Bytes} (hnd : strs.Nodup) (hne : [] ∉ strs)
    (hlen : strs.length < 2 ^ 31) (S : List LuaValue) (h : List LuaTable) (T : Thread) :
    ∃ st L, Stored strs S h T st L := by
  obtain ⟨st, pool, h', p, hrun, hp, hh, _⟩ := storeAll_eq T strs []
    (@stringsAt_create h S) .start hnd hne hlen (le_max_right S.length (S.length + 2))
  refine ⟨st, ⟨withStrings h S, h', T, p⟩, ?_, ?_⟩
  · rw [LuaState.entry, create_mk]
    exact hrun
  · rw [entriesAt_index2string hp, hh.index2string, length_arrayEntries, List.length_map,
      List.nil_append]

/-- A table takes fewer than `2^31` strings. -/
theorem Stored.length_lt {strs : List Bytes} {S : List LuaValue} {h : List LuaTable} {T : Thread}
    {st : StringTable} {L : LuaState} (hst : Stored strs S h T st L) : strs.length < 2 ^ 31 := by
  rw [← hst.all]
  unfold LuaState.entriesAt
  split
  · rename_i ref _
    cases L.heap[ref]? with
    | none => simp
    | some t => exact t.length_lt
  · simp

variable {strs : List Bytes}

/-- The bytes that `write` appends for a pool that has been stored. -/
theorem data_write (hnd : strs.Nodup) (hne : [] ∉ strs) {S : List LuaValue} {h : List LuaTable}
    {T : Thread} {st : StringTable} {L : LuaState} (hst : Stored strs S h T st L)
    (stream : BinaryWriter) :
    (st.write L stream).2.data =
      stream.data ++ (leBytesInt stringPoolLengthSize strs.length ++ Doc.encodePool strs) := by
  obtain ⟨st', pool, h', p', hrun, hp, hh, hle⟩ := storeAll_eq T strs []
    (@stringsAt_create h S) .start hnd hne hst.length_lt
    (le_max_right S.length (S.length + 2))
  have heq := hst.run
  rw [LuaState.entry, create_mk, hrun] at heq
  injection heq with heq
  injection heq with h1 h2
  subst h1 h2
  have hpool := Doc.data_writePool hh [] strs (stream.writeNumber stringPoolLengthSize strs.length) rfl
  rw [List.length_nil, Nat.zero_add, BinaryWriter.data_writeNumber, List.append_assoc] at hpool
  rw [StringTable.write, hp.size_eq, hh.size_eq, List.nil_append, writeLoop_eq hp T _ _ _ _ hle]
  exact hpool

/-! ### Reading -/

/-- The reader gets no string that is too long for its field. -/
theorem length_of_mem_readPool : ∀ (n : Nat) (r : BinaryReader),
    ∀ s ∈ (readPool n r).1, s.length < 2 ^ 16
  | 0, _, s, hs => by cases hs
  | n + 1, r, s, hs => by
    have hfield := leNat_lt (r.readNumber stringLengthSize).1
    rw [BinaryReader.length_readNumber] at hfield
    simp only [readPool] at hs
    split_ifs at hs with hz
    · cases hs
    · split at hs
      · cases hs
      · rename_i str r' hb
        rcases List.mem_cons.mp hs with rfl | hs
        · -- the string has as many bytes as its field says
          rw [(BinaryReader.ahead_of_readBytes hb).1]
          exact hfield
        · exact length_of_mem_readPool n r' s hs

/-- The strings of the table of a pool are those of the pool. -/
theorem mem_of_get_fillPool {k : LuaValue} {s : Bytes} : ∀ (strs : List Bytes) (i : Nat)
    (t : LuaTable), (fillPool i t strs).get k = .string s → t.get k = .string s ∨ s ∈ strs
  | [], _, _, h => Or.inl h
  | str :: strs, i, t, h => by
    rcases mem_of_get_fillPool strs (i + 1) _ h with h | h
    · rcases LuaTable.get_set_or t (integer (toInt32 (toInt32 i + 1))) (.string str) k with hk | hk
      · exact Or.inl (hk ▸ h)
      · rw [hk] at h
        injection h with h
        exact Or.inr (h ▸ List.mem_cons_self ..)
    · exact Or.inr (List.mem_cons_of_mem _ h)

section

variable {sizes : TableSizes} (before body : Bytes) (L : LuaState) (tr : List ParseEvent)

/-- Strings that the reader gets back fit their fields. -/
theorem PoolSurvives.length_lt {bs : Bytes} (hlen : strs.length < 2 ^ 31)
    (h : PoolSurvives sizes strs before bs body L tr) : ∀ s ∈ strs, s.length < 2 ^ 16 := by
  obtain ⟨st, s', ref, t, hparse, _, _, hadr, ht, hes⟩ := h
  generalize BinaryReader.mk (before ++ (bs ++ body)) before.length = r at hparse
  rcases hpool : readPool (leNat (r.readNumber stringPoolLengthSize).1)
    (r.readNumber stringPoolLengthSize).2 with ⟨strs', ok, r₂⟩
  obtain ⟨tr', hrun⟩ := Reader.parse_eq sizes L r tr rfl rfl hpool
  rw [hrun] at hparse
  split_ifs at hparse
  injection hparse with hparse
  injection hparse with _ hparse
  injection hparse with hst hs'
  subst hst hs'
  -- the table of the pool holds what has been read
  have htable : t = Reader.poolTable strs' := by
    have hslot : slot (.table L.heap.length :: L.stack) (L.gettop + 1) = .table ref := by
      rw [← hadr, index2adr_mk _ _ _ _ (Nat.succ_pos _)]
    rw [gettop, slot_top] at hslot
    injection hslot with href
    rw [← href] at ht
    simpa using ht.symm
  intro s hs
  obtain ⟨i, hi, rfl⟩ := List.mem_iff_getElem.mp hs
  have hget := LuaTable.get_integer hes (m := i) (by omega)
  rw [List.getElem?_map, List.getElem?_eq_getElem hi, htable] at hget
  rcases mem_of_get_fillPool strs' 0 .empty hget with h | h
  · cases h
  · have hread := length_of_mem_readPool (leNat (r.readNumber stringPoolLengthSize).1)
      (r.readNumber stringPoolLengthSize).2
    rw [hpool] at hread
    exact hread _ h

/-- Strings that fit their fields are read again. -/
theorem poolSurvives_of_length_lt (hlen : strs.length < 2 ^ 31)
    (hsize : sizes strs.length 0 = true) (hne : [] ∉ strs) (hshort : ∀ s ∈ strs, s.length < 2 ^ 16) :
    PoolSurvives sizes strs before
      (leBytesInt stringPoolLengthSize strs.length ++ Doc.encodePool strs) body L tr := by
  generalize hr : BinaryReader.mk (before ++ (leBytesInt stringPoolLengthSize strs.length ++
    Doc.encodePool strs ++ body)) before.length = r
  have ha : r.Ahead (leBytesInt stringPoolLengthSize strs.length ++ Doc.encodePool strs) := by
    rw [← hr]
    unfold BinaryReader.Ahead
    rw [List.drop_left]
    exact List.prefix_append _ _
  have hcount : leNat (leBytesInt stringPoolLengthSize strs.length) = strs.length :=
    leNat_leBytesInt (lt_trans hlen (by decide))
  have hnum := BinaryReader.readInt_of_ahead ha.left
  have hrest := ha.right
  rw [length_leBytesInt] at hrest
  have hpool := readPool_encodePool
    (fun s hs => ⟨fun h => hne (h ▸ hs), hshort s hs⟩) hrest
  obtain ⟨tr', hparse⟩ := Reader.parse_eq sizes L r tr (by rw [hnum, hcount]) (by rw [hnum]) hpool
  have hint : toInt32 strs.length = strs.length := Int.bmod_eq_of_le (by omega) (by omega)
  rw [hint, if_pos hsize] at hparse
  refine ⟨_, _, L.heap.length, Reader.poolTable strs, hr ▸ hparse, ?_, rfl, ?_, ?_, ?_⟩
  · simp only [BinaryReader.skip, List.length_append, length_leBytesInt, Nat.add_assoc]
  · rw [index2adr_mk _ _ _ _ (Nat.succ_pos _)]
    exact slot_top _ L.stack
  · simp
  · exact entries_fillPool strs [] rfl (by simpa using hlen)

end

/-- A pool that has been stored is written and read again exactly where each of its strings is
shorter than `2^16` bytes. -/
theorem poolSurvives_iff {sizes : TableSizes} (hnd : strs.Nodup) (hne : [] ∉ strs)
    {S : List LuaValue} {h : List LuaTable} {T : Thread} {st : StringTable} {L : LuaState}
    (hst : Stored strs S h T st L) (hsize : sizes strs.length 0 = true) (before body : Bytes)
    (L' : LuaState) (tr : List ParseEvent) :
    PoolSurvives sizes strs before (st.write L .empty).2.data body L' tr ↔
      ∀ s ∈ strs, s.length < 2 ^ 16 := by
  have hlen := hst.length_lt
  constructor
  · intro h
    exact h.length_lt before body L' tr hlen
  · intro hshort
    rw [data_write hnd hne hst, BinaryWriter.data_empty, List.nil_append]
    exact poolSurvives_of_length_lt before body L' tr hlen hsize hne hshort

/-- A pool of two strings, in front of one more byte. -/
theorem poolSurvives_two_strings :
    ∃ st L, Stored [[97], [98, 98]] [.nil] [] (.fresh .nil) st L ∧
      PoolSurvives (fun _ _ => true) [[97], [98, 98]] [1] (st.write L .empty).2.data [1]
        (.entry [] [] (.fresh .nil)) [] := by
  obtain ⟨st, L, hst⟩ := @exists_stored [[97], [98, 98]] (by decide) (by decide) (by decide)
    [.nil] [] (.fresh .nil)
  refine ⟨st, L, hst, ?_⟩
  exact (poolSurvives_iff (by decide) (by decide) hst rfl [1] [1] (.entry [] [] (.fresh .nil)) []).mpr
    (by decide)

/-- A string of `2^16` bytes is written behind the length 0. -/
theorem not_poolSurvives_two_pow_16 :
    ∃ st L, Stored [List.replicate (2 ^ 16) 97] [] [] (.fresh .nil) st L ∧
      ¬ PoolSurvives (fun _ _ => true) [List.replicate (2 ^ 16) 97] [] (st.write L .empty).2.data []
        (.entry [] [] (.fresh .nil)) [] := by
  have hne : [] ∉ [List.replicate (2 ^ 16) (97 : UInt8)] := by
    rw [List.mem_singleton]
    intro h
    have hlen := congrArg List.length h
    rw [List.length_replicate] at hlen
    cases hlen
  obtain ⟨st, L, hst⟩ := exists_stored (List.nodup_singleton _) hne
    (show 1 < 2 ^ 31 by decide) [] [] (.fresh .nil)
  refine ⟨st, L, hst, fun h => ?_⟩
  have hlt := h.length_lt _ _ _ _ hst.length_lt _ (List.mem_singleton_self _)
  rw [List.length_replicate] at hlt
  exact absurd hlt (lt_irrefl _)

end LuaBinaryTable
