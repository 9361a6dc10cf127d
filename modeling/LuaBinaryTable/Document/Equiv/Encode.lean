import LuaBinaryTable.BinaryReader.Ahead
import LuaBinaryTable.Document.Equiv.Emit
import LuaBinaryTable.Document.Equiv.Read

/-!
# Reading what was written

`readDocument_encodeFile`: the reader of the format takes the bytes of an encodable document for
that document, and stops behind its last byte.
-/

namespace LuaBinaryTable

namespace BinaryReader

variable {r : BinaryReader}

theorem readType_of_ahead {type : BinaryType} {payload : Int} (h : r.Ahead (type.node payload)) :
    r.readType = (type.value, r.skip 1) ∧ (r.skip 1).Ahead (leBytesInt type.width payload) := by
  have h' : r.Ahead ([UInt8.ofNat type.value] ++ leBytesInt type.width payload) := h
  have hr := readNumber_of_ahead h'.left
  refine ⟨?_, h'.right⟩
  rw [List.length_singleton] at hr
  simp only [readType, hr, leNat, BinaryType.toNat_ofNat_value]
  rfl

end BinaryReader

open BinaryReader

/-- A length fits the width that is chosen for it. -/
theorem leNat_length {t : BinaryType} (ht : t.IsLengthBase) {n : Nat} (h : n < 2 ^ 32) :
    leNat (leBytesInt (lengthType t n).width n) = n := by
  apply leNat_leBytesInt
  rw [width_lengthType ht]
  split_ifs <;> omega

/-- An integer fits the width that is chosen for it. -/
theorem build_integer {i : Int} (hi : Binary64.InInt64 i) (pool : Nat → Doc) :
    (integerType i).build pool (leBytesInt (integerType i).width i) [] = .integer i := by
  obtain ⟨hlo, hhi⟩ := hi
  unfold integerType
  split_ifs with h0 h1 h8 h16 h32
  · rw [h0]; rfl
  · rw [h1]; rfl
  · exact congrArg Doc.integer (leInt_leBytesInt (w := 1) (by omega) (by omega))
  · exact congrArg Doc.integer (leInt_leBytesInt (w := 2) (by omega) (by omega))
  · exact congrArg Doc.integer (leInt_leBytesInt (w := 4) (by omega) (by omega))
  · exact congrArg Doc.integer (leInt_leBytesInt (w := 8) (by omega) (by omega))

theorem items_integer (i : Int) (b : Bytes) : (integerType i).items b = 0 := by
  unfold integerType
  split_ifs <;> rfl

theorem length_node (type : BinaryType) (payload : Int) :
    (type.node payload).length = 1 + type.width := by
  rw [BinaryType.node, List.length_cons, length_leBytesInt, Nat.add_comm]

/-! ### Values -/

/-- A reader that takes the bytes of each of some documents for the document. -/
def Reads (pool : List Bytes) (rd : BinaryReader → Doc × BinaryReader) (ds : List Doc) : Prop :=
  ∀ d ∈ ds, ∀ r : BinaryReader, r.Ahead (d.encode pool) →
    rd r = (d, r.skip (d.encode pool).length)

theorem readItems_encodeItems {pool : List Bytes} {rd : BinaryReader → Doc × BinaryReader} :
    ∀ {ds : List Doc} {r : BinaryReader}, (∀ d ∈ ds, d.Complete) → Reads pool rd ds →
      r.Ahead (Doc.encodeItems pool ds) →
      readItems rd ds.length r = (ds, r.skip (Doc.encodeItems pool ds).length)
  | [], r, _, _, _ => rfl
  | d :: ds, r, hc, hrd, ha => by
    rw [Doc.encodeItems] at ha
    have hd := hrd d (List.mem_cons_self ..) r ha.left
    have hrest := readItems_encodeItems (fun d' h => hc d' (List.mem_cons_of_mem _ h))
      (fun d' h => hrd d' (List.mem_cons_of_mem _ h)) ha.right
    simp only [List.length_cons, readItems, hd, hc d (List.mem_cons_self ..), if_true, hrest,
      skip_skip, Doc.encodeItems, List.length_append]

/-- A value that is written as its tag, its payload and the values that follow. -/
theorem readDoc_of_node {lookup : Nat → Doc} {pool : List Bytes} {fuel : Nat} {d : Doc}
    (type : BinaryType) (payload : Int) (ds : List Doc) {r : BinaryReader}
    (hd : d.encode pool = type.node payload ++ Doc.encodeItems pool ds)
    (hbuild : type.build lookup (leBytesInt type.width payload) ds = d)
    (hn : type.items (leBytesInt type.width payload) = ds.length) (hc : ∀ d ∈ ds, d.Complete)
    (hrd : ∀ fuel, (Doc.encodeItems pool ds).length ≤ fuel → Reads pool (readDoc lookup fuel) ds)
    (hf : (d.encode pool).length ≤ fuel) (ha : r.Ahead (d.encode pool)) :
    readDoc lookup fuel r = (d, r.skip (d.encode pool).length) := by
  rw [hd] at hf ha ⊢
  rw [List.length_append, length_node] at hf
  obtain ⟨fuel, rfl⟩ : ∃ fuel', fuel = fuel' + 1 := ⟨fuel - 1, by omega⟩
  obtain ⟨htype, hpayload⟩ := readType_of_ahead ha.left
  have hskip : ((r.skip 1).skip type.width) = r.skip (type.node payload).length := by
    rw [skip_skip, length_node]
  have hitems := readItems_encodeItems hc (hrd fuel (by omega)) ha.right
  simp only [readDoc, htype, BinaryType.ofNat?_value, readInt_of_ahead hpayload, hn, hskip, hitems,
    skip_skip, List.length_append, hbuild]

/-- A value without others in it. -/
theorem readDoc_of_leaf {lookup : Nat → Doc} {pool : List Bytes} {fuel : Nat} {d : Doc}
    (type : BinaryType) (payload : Int) {r : BinaryReader}
    (hd : d.encode pool = type.node payload)
    (hbuild : type.build lookup (leBytesInt type.width payload) [] = d)
    (hn : type.items (leBytesInt type.width payload) = 0)
    (hf : (d.encode pool).length ≤ fuel) (ha : r.Ahead (d.encode pool)) :
    readDoc lookup fuel r = (d, r.skip (d.encode pool).length) :=
  readDoc_of_node type payload [] (hd.trans (List.append_nil _).symm) hbuild hn (by simp)
    (fun _ _ _ h => by cases h) hf ha

/-- The lookup gives every string of the pool under its number. -/
def Serves (lookup : Nat → Doc) (pool : List Bytes) : Prop :=
  ∀ s ∈ pool, lookup (Doc.stringIndex pool s) = .string s

mutual

/-- The strings of the document are in the pool. -/
def Doc.StringsIn (pool : List Bytes) : Doc → Prop
  | .string s => s = [] ∨ s ∈ pool
  | .array _ items => Doc.StringsInItems pool items
  | .table _ items => Doc.StringsInItems pool items
  | _ => True

def Doc.StringsInItems (pool : List Bytes) : List Doc → Prop
  | [] => True
  | d :: ds => d.StringsIn pool ∧ Doc.StringsInItems pool ds

end

mutual

/-- The strings of a document are in every pool that they come first in. -/
theorem Doc.stringsIn_of_collect {pool : List Bytes} : ∀ (d : Doc) (seen : List Bytes),
    d.collect seen <+: pool → d.StringsIn pool
  | .string s, seen, h => by
    rw [collect] at h
    rw [StringsIn]
    by_cases hs : s = []
    · exact Or.inl hs
    · refine Or.inr (h.subset ?_)
      by_cases hm : s ∈ seen
      · simp [hm]
      · simp [hs, hm]
  | .array _ items, seen, h => stringsInItems_of_collect items seen h
  | .table _ items, seen, h => stringsInItems_of_collect items seen h
  | .nil, _, _ | .boolean _, _, _ | .integer _, _, _ | .double _, _, _ | .emptyTable, _, _
  | .stop _, _, _ => trivial

theorem Doc.stringsInItems_of_collect {pool : List Bytes} : ∀ (ds : List Doc) (seen : List Bytes),
    collectItems ds seen <+: pool → StringsInItems pool ds
  | [], _, _ => trivial
  | d :: ds, seen, h =>
    ⟨stringsIn_of_collect d seen ((prefix_collectItems ds _).trans h),
      stringsInItems_of_collect ds (d.collect seen) h⟩

end

mutual

theorem Doc.complete_of_encodable {limit : Nat} : ∀ (d : Doc), d.Encodable limit → d.Complete
  | .array _ items, h => completeItems_of_encodable items h.2.2.2
  | .table _ items, h => completeItems_of_encodable items h.2.2.2
  | .stop _, h => h.elim
  | .nil, _ | .boolean _, _ | .integer _, _ | .double _, _ | .string _, _ | .emptyTable, _ => rfl

theorem Doc.completeItems_of_encodable {limit : Nat} : ∀ (ds : List Doc),
    EncodableItems limit ds → stopsItems ds = none
  | [], _ => rfl
  | d :: ds, h => by
    rw [stopsItems, complete_of_encodable d h.1, completeItems_of_encodable ds h.2]
    rfl

end

theorem items_string (n : Nat) (b : Bytes) : (lengthType .tString0 n).items b = 0 := by
  unfold lengthType
  split_ifs <;> rfl

theorem build_string {n : Nat} (hn : n ≠ 0) (lookup : Nat → Doc) (b : Bytes) (ds : List Doc) :
    (lengthType .tString0 n).build lookup b ds = lookup (leNat b) := by
  rw [lengthType, if_neg hn]
  split_ifs <;> rfl

/-- The tags of the nonempty arrays. -/
theorem array_lengthType {n : Nat} (hn : n ≠ 0) (lookup : Nat → Doc) (b : Bytes) (ds : List Doc) :
    (lengthType .tArray0 n).items b = leNat b ∧
      (lengthType .tArray0 n).build lookup b ds = .array (leNat b) ds := by
  rw [lengthType, if_neg hn]
  split_ifs <;> exact ⟨rfl, rfl⟩

/-- The tags of the nonempty tables. -/
theorem table_lengthType {n : Nat} (hn : n ≠ 0) (lookup : Nat → Doc) (b : Bytes) (ds : List Doc) :
    (lengthType .tTable0 n).items b = 2 * leNat b ∧
      (lengthType .tTable0 n).build lookup b ds = .table (leNat b) ds := by
  rw [lengthType, if_neg hn]
  split_ifs <;> exact ⟨rfl, rfl⟩

mutual

/-- The bytes of an encodable document are read as the document. -/
theorem readDoc_encode {limit : Nat} {pool : List Bytes} {lookup : Nat → Doc}
    (hlimit : limit ≤ 2 ^ 32) (hpool : pool.length < 2 ^ 31) (hlookup : Serves lookup pool) :
    ∀ (d : Doc) (fuel : Nat) (r : BinaryReader), d.Encodable limit → d.StringsIn pool →
      (d.encode pool).length ≤ fuel → r.Ahead (d.encode pool) →
      readDoc lookup fuel r = (d, r.skip (d.encode pool).length)
  | .nil, _, _, _, _, hf, ha => readDoc_of_leaf .tNil _ rfl rfl rfl hf ha
  | .boolean true, _, _, _, _, hf, ha => readDoc_of_leaf .tTrue _ rfl rfl rfl hf ha
  | .boolean false, _, _, _, _, hf, ha => readDoc_of_leaf .tFalse _ rfl rfl rfl hf ha
  | .integer i, _, _, he, _, hf, ha =>
    readDoc_of_leaf (integerType i) i rfl (build_integer he _) (items_integer i _) hf ha
  | .double x, _, _, _, _, hf, ha => by
    refine readDoc_of_leaf .tDouble _ rfl ?_ rfl hf ha
    have hx : leNat (leBytesInt 8 x.bits.toNat) = x.bits.toNat :=
      leNat_leBytesInt x.bits.toNat_lt
    simp only [BinaryType.build, BinaryType.width, hx, UInt64.ofNat_toNat]
  | .string s, _, _, _, hs, hf, ha => by
    by_cases hne : s = []
    -- the empty string has a tag of its own and no place in the pool
    · subst hne
      exact readDoc_of_leaf .tString0 _ rfl rfl rfl hf ha
    · have hmem := hs.resolve_left hne
      have hidx : Doc.stringIndex pool s < 2 ^ 32 := by
        have := List.idxOf_lt_length_of_mem hmem
        rw [Doc.stringIndex]
        omega
      refine readDoc_of_leaf (lengthType .tString0 (Doc.stringIndex pool s))
        (Doc.stringIndex pool s) (by rw [Doc.encode, if_neg hne]) ?_
        (items_string _ _) hf ha
      rw [build_string (n := Doc.stringIndex pool s) (Nat.succ_ne_zero _),
        leNat_length (Or.inl rfl) hidx, hlookup s hmem]
  | .emptyTable, _, _, _, _, hf, ha => readDoc_of_leaf .tTable0 _ rfl rfl rfl hf ha
  | .array size items, _, _, ⟨hpos, hlt, hlen, hitems⟩, hs, hf, ha => by
    -- the size fits the width its tag announces, so it is read back whole
    have hsize := leNat_length (t := .tArray0) (Or.inr (Or.inl rfl)) (n := size) (by omega)
    obtain ⟨hn, hb⟩ := array_lengthType hpos.ne' lookup
      (leBytesInt (lengthType .tArray0 size).width size) items
    refine readDoc_of_node (lengthType .tArray0 size) size items rfl ?_ ?_ ?_ ?_ hf ha
    · rw [hb, hsize]
    · rw [hn, hsize, hlen]
    · exact Doc.stopsItems_eq_none.mp (Doc.completeItems_of_encodable items hitems)
    · exact fun fuel hf' => reads_encodeItems hlimit hpool hlookup items fuel hitems hs hf'
  | .table size items, _, _, ⟨hpos, hlt, hlen, hitems⟩, hs, hf, ha => by
    have hsize := leNat_length (t := .tTable0) (Or.inr (Or.inr rfl)) (n := size) (by omega)
    obtain ⟨hn, hb⟩ := table_lengthType hpos.ne' lookup
      (leBytesInt (lengthType .tTable0 size).width size) items
    refine readDoc_of_node (lengthType .tTable0 size) size items rfl ?_ ?_ ?_ ?_ hf ha
    · rw [hb, hsize]
    · rw [hn, hsize, hlen]
    · exact Doc.stopsItems_eq_none.mp (Doc.completeItems_of_encodable items hitems)
    · exact fun fuel hf' => reads_encodeItems hlimit hpool hlookup items fuel hitems hs hf'
  | .stop _, _, _, he, _, _, _ => he.elim

theorem reads_encodeItems {limit : Nat} {pool : List Bytes} {lookup : Nat → Doc}
    (hlimit : limit ≤ 2 ^ 32) (hpool : pool.length < 2 ^ 31) (hlookup : Serves lookup pool) :
    ∀ (ds : List Doc) (fuel : Nat), Doc.EncodableItems limit ds → Doc.StringsInItems pool ds →
      (Doc.encodeItems pool ds).length ≤ fuel → Reads pool (readDoc lookup fuel) ds
  | [], _, _, _, _ => fun _ h => by cases h
  | d :: ds, fuel, he, hs, hf => by
    rw [Doc.encodeItems, List.length_append] at hf
    intro d' hd' r ha
    rcases List.mem_cons.mp hd' with h | hd'
    · rw [h] at ha ⊢
      exact readDoc_encode hlimit hpool hlookup d fuel r he.1 hs.1 (by omega) ha
    · exact reads_encodeItems hlimit hpool hlookup ds fuel he.2 hs.2 (by omega) d' hd' r ha

end

/-! ### Pools and files -/

/-- The strings of a pool are read again. -/
theorem readPool_encodePool : ∀ {strs : List Bytes} {r : BinaryReader},
    (∀ s ∈ strs, s ≠ [] ∧ s.length < 2 ^ 16) → r.Ahead (Doc.encodePool strs) →
    readPool strs.length r = (strs, true, r.skip (Doc.encodePool strs).length)
  | [], r, _, _ => rfl
  | s :: strs, r, hs, ha => by
    obtain ⟨hne, hlt⟩ := hs s (List.mem_cons_self ..)
    rw [Doc.encodePool, List.append_assoc] at ha
    have hlen : leNat (leBytesInt stringLengthSize s.length) = s.length := leNat_leBytesInt hlt
    have hnum := readInt_of_ahead ha.left
    have hrest := ha.right
    rw [length_leBytesInt] at hrest
    have hbytes := readBytes_of_ahead hrest.left hne
    have hrec := readPool_encodePool (fun s' h => hs s' (List.mem_cons_of_mem _ h)) hrest.right
    have hz : s.length ≠ 0 := fun h => hne (List.length_eq_zero_iff.mp h)
    simp only [List.length_cons, readPool, hnum, hlen, hz, if_false, hbytes, hrec]
    simp only [skip_skip, Doc.encodePool, List.length_append, length_leBytesInt, Nat.add_assoc]

/-- The index of an element, as long as an `int` can hold it. -/
theorem toInt32_succ {i : Nat} (hi : i + 1 < 2 ^ 31) : toInt32 (toInt32 i + 1) = ↑(i + 1) := by
  unfold toInt32
  rw [Int.bmod_eq_of_le (n := (i : Int)) (by omega) (by omega),
    Int.bmod_eq_of_le (by omega) (by omega), Int.natCast_succ]

/-- The table of a pool that is not too long. -/
theorem entries_fillPool : ∀ (strs pre : List Bytes) {t : LuaTable},
    t.entries = arrayEntries 1 (pre.map .string) → pre.length + strs.length < 2 ^ 31 →
    (fillPool pre.length t strs).entries = arrayEntries 1 ((pre ++ strs).map .string)
  | [], pre, t, h, _ => by rw [fillPool, h, List.append_nil]
  | s :: strs, pre, t, h, hlen => by
    rw [List.length_cons] at hlen
    have hi := toInt32_succ (i := pre.length) (by omega)
    have hset := @LuaTable.entries_setContents_append (pre.map .string) [.string s] _ h
      (by simp) (by simp; omega)
    rw [List.length_map, setContents, setContents, ← hi] at hset
    have hrec := entries_fillPool strs (pre ++ [s])
      (hset.trans (by rw [List.map_append]; rfl)) (by simp; omega)
    rw [List.length_append, List.length_singleton, List.append_assoc, List.singleton_append]
      at hrec
    rw [fillPool]
    exact hrec

/-- The decoder's pool serves the strings it was written from. -/
theorem serves_poolDoc {strs : List Bytes} (hlen : strs.length < 2 ^ 31) :
    Serves (poolDoc (fillPool 0 LuaTable.empty strs) strs.length) strs := by
  intro s hs
  have hidx := List.idxOf_lt_length_of_mem hs
  have hes := @entries_fillPool strs [] LuaTable.empty rfl (by simpa)
  have hi : toInt32 (Doc.stringIndex strs s) = ↑(strs.idxOf s + 1) :=
    Int.bmod_eq_of_le (by rw [Doc.stringIndex]; omega) (by rw [Doc.stringIndex]; omega)
  have hget : (fillPool 0 LuaTable.empty strs).get (integer ↑(strs.idxOf s + 1)) = .string s := by
    have hget := LuaTable.get_integer hes (m := strs.idxOf s) (by omega)
    rw [List.nil_append, List.getElem?_map, List.getElem?_eq_getElem hidx,
      List.getElem_idxOf hidx] at hget
    exact hget
  rw [poolDoc, if_pos (by rw [Doc.stringIndex]; omega), hi, hget]

mutual

/-- The pool of an encodable document has no empty string, and none that is too long. -/
theorem Doc.collect_encodable {limit : Nat} : ∀ (d : Doc) (seen : List Bytes),
    d.Encodable limit → (∀ s ∈ seen, s ≠ [] ∧ s.length < 2 ^ 16) →
    ∀ s ∈ d.collect seen, s ≠ [] ∧ s.length < 2 ^ 16
  | .string s, seen, he, h => by
    rw [collect]
    split_ifs with hs
    · exact h
    · intro s' hs'
      rcases List.mem_append.mp hs' with hs' | hs'
      · exact h s' hs'
      · rw [List.mem_singleton.mp hs']
        exact ⟨fun hne => hs (Or.inl hne), he⟩
  | .array _ items, seen, he, h => collectItems_encodable items seen he.2.2.2 h
  | .table _ items, seen, he, h => collectItems_encodable items seen he.2.2.2 h
  | .nil, _, _, h | .boolean _, _, _, h | .integer _, _, _, h | .double _, _, _, h
  | .emptyTable, _, _, h | .stop _, _, _, h => h

theorem Doc.collectItems_encodable {limit : Nat} : ∀ (ds : List Doc) (seen : List Bytes),
    EncodableItems limit ds → (∀ s ∈ seen, s ≠ [] ∧ s.length < 2 ^ 16) →
    ∀ s ∈ collectItems ds seen, s ≠ [] ∧ s.length < 2 ^ 16
  | [], _, _, h => h
  | d :: ds, seen, he, h =>
    collectItems_encodable ds (d.collect seen) he.2 (collect_encodable d seen he.1 h)

end

/-- The strings of a complete pool, and the bytes that they are read from. -/
theorem ahead_of_readPool : ∀ {n : Nat} {r r' : BinaryReader} {strs : List Bytes},
    readPool n r = (strs, true, r') →
      strs.length = n ∧ (∀ s ∈ strs, s ≠ [] ∧ s.length < 2 ^ 16) ∧ r.Ahead (Doc.encodePool strs)
  | 0, r, r', strs, h => by
    obtain ⟨rfl, _⟩ := Prod.mk.inj h
    exact ⟨rfl, by simp, List.nil_prefix⟩
  | n + 1, r, r', strs, h => by
    have hfield := leNat_lt (r.readNumber stringLengthSize).1
    rw [length_readNumber] at hfield
    simp only [readPool] at h
    split_ifs at h with hz
    · cases h
    split at h
    · cases h
    rename_i str r₁ hb
    -- one string: its length, its bytes, and the pool that is left
    obtain ⟨hlen, hstr, hr₁⟩ := ahead_of_readBytes hb
    rcases hrec : readPool n r₁ with ⟨strs', ok, r₂⟩
    simp only [hrec, Prod.mk.injEq] at h
    obtain ⟨rfl, rfl, rfl⟩ := h
    obtain ⟨hn, hstrs, ha⟩ := ahead_of_readPool hrec
    have hnum := ahead_readNumber (add_le_of_readNumber hz)
    have hbytes := leBytesInt_leNat (r.readNumber stringLengthSize).1
    rw [length_readNumber] at hbytes
    refine ⟨congrArg (· + 1) hn, ?_, ?_⟩
    · intro s hs
      rcases List.mem_cons.mp hs with rfl | hs
      · rw [hlen]
        exact ⟨fun hnil => hz (by rw [← hlen, hnil]; rfl), hfield⟩
      · exact hstrs s hs
    · rw [Doc.encodePool, hlen, hbytes, List.append_assoc]
      refine hnum.append ?_
      rw [length_readNumber]
      refine hstr.append ?_
      rw [hlen]
      exact hr₁ ▸ ha

/-- What is read behind a good head. -/
theorem readDocument_encodeHead {strs : List Bytes} (hs : Doc.PoolStrings strs) (body : Bytes) :
    readDocument (Doc.encodeHead strs ++ body) =
      .body strs
        (readDoc (poolDoc (fillPool 0 LuaTable.empty strs) strs.length)
          ((Doc.encodeHead strs ++ body).length + 1)
          ⟨Doc.encodeHead strs ++ body, (Doc.encodeHead strs).length⟩).1
        (readDoc (poolDoc (fillPool 0 LuaTable.empty strs) strs.length)
          ((Doc.encodeHead strs ++ body).length + 1)
          ⟨Doc.encodeHead strs ++ body, (Doc.encodeHead strs).length⟩).2 := by
  have ha : Ahead ⟨Doc.encodeHead strs ++ body, 0⟩ (Doc.encodeHead strs) := List.prefix_append _ _
  generalize Doc.encodeHead strs ++ body = data at ha ⊢
  have hlen : (Doc.encodeHead strs).length = 8 + (Doc.encodePool strs).length := by
    simp only [Doc.encodeHead, List.length_append, length_leBytesInt, stringPoolLengthSize]
    omega
  rw [hlen]
  rw [Doc.encodeHead] at ha
  -- the four parts of the head, each ahead of a reader that has passed the ones before
  have ha₂ := ha.right
  have ha₄ := ha₂.right
  have ha₈ := ha₄.right
  simp only [length_leBytesInt, skip_skip] at ha₂ ha₄ ha₈
  have hcount : leNat (leBytesInt stringPoolLengthSize strs.length) = strs.length :=
    leNat_leBytesInt hs.1
  have hmagic : leNat (leBytesInt 2 magicNumber) = magicNumber := leNat_leBytesInt (by decide)
  have hversion : leNat (leBytesInt 2 luabtVersion) = luabtVersion :=
    leNat_leBytesInt (by decide)
  simp only [readDocument, readInt_of_ahead ha.left, readInt_of_ahead ha₂.left,
    readInt_of_ahead ha₄.left, hmagic, hversion, hcount, ne_eq, not_true_eq_false, if_false,
    skip_skip, readPool_encodePool hs.2 ha₈]
  simp only [skip, Nat.zero_add]
  rfl

/-- What is read of the bytes of an encodable document, whatever follows them. -/
theorem readDocument_encodeFile {limit : Nat} (hlimit : limit ≤ 2 ^ 32) {d : Doc}
    (he : d.Encodable limit) (hlen : (d.collect []).length < 2 ^ 31) (suffix : Bytes) :
    readDocument (d.encodeFile ++ suffix) =
      .body (d.collect []) d ⟨d.encodeFile ++ suffix, d.encodeFile.length⟩ := by
  have hstrs : Doc.PoolStrings (d.collect []) :=
    ⟨lt_trans hlen (by decide), d.collect_encodable [] he (by simp)⟩
  have hsplit : d.encodeFile = Doc.encodeHead (d.collect []) ++ d.encode (d.collect []) := by
    simp only [Doc.encodeFile, Doc.encodeHead, List.append_assoc]
  have hread := readDoc_encode hlimit hlen (serves_poolDoc hlen) d
    ((d.encodeFile ++ suffix).length + 1)
    ⟨d.encodeFile ++ suffix, (Doc.encodeHead (d.collect [])).length⟩ he
    (d.stringsIn_of_collect [] (List.prefix_refl _)) ?_ ?_
  · rw [hsplit, List.append_assoc] at hread ⊢
    rw [readDocument_encodeHead hstrs, hread, skip, List.length_append]
  · rw [hsplit]
    simp only [List.length_append]
    omega
  · rw [hsplit, List.append_assoc]
    unfold Ahead
    rw [List.drop_left]
    exact List.prefix_append _ _

end LuaBinaryTable
