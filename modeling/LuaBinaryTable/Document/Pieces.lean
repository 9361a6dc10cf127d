import LuaBinaryTable.Document.Equiv.Emit

/-!
# Emitting piece by piece

The writing of a document is a sequence of `Piece`s: a tag with its payload, the storing of a
string, and the tag of a string stored.  After any number of them the pool is the strings stored so
far in the order of their first occurrence (`stored`), and the output is what the pieces make of
that pool (`body`).  The strings and bytes of a whole document are those of all its pieces
(`collect_eq`, `encode_eq`).
-/

namespace LuaBinaryTable

inductive Piece where
  /-- A tag with its payload. -/
  | tag (type : BinaryType) (payload : Int)
  /-- A call of `storeString`. -/
  | store (s : Bytes)
  /-- The tag of a stored string, with its number. -/
  | string (s : Bytes)
  deriving DecidableEq

namespace Piece

/-- The pool after a piece. -/
def pool : Piece → List Bytes → List Bytes
  | store s, strs => if strs.contains s then strs else strs ++ [s]
  | _, strs => strs

theorem pool_store (s : Bytes) (strs : List Bytes) :
    pool (store s) strs = if s ∈ strs then strs else strs ++ [s] := by
  rw [pool]
  exact if_congr List.contains_iff_mem rfl rfl

/-- The bytes of a piece, given the pool. -/
def bytes (strs : List Bytes) : Piece → Bytes
  | tag type payload => type.node payload
  | store _ => []
  | string s => (lengthType .tString0 (Doc.stringIndex strs s)).node (Doc.stringIndex strs s)

end Piece

/-- The pool after some pieces, from the pool `seen` on. -/
def storedFrom (seen : List Bytes) (ps : List Piece) : List Bytes :=
  ps.foldl (fun strs p => p.pool strs) seen

/-- The strings stored, in the order of their first occurrence. -/
def stored (ps : List Piece) : List Bytes := storedFrom [] ps

/-- The output after some pieces, given the pool. -/
def body (strs : List Bytes) (ps : List Piece) : Bytes := ps.flatMap (Piece.bytes strs)

@[simp] theorem storedFrom_append (seen : List Bytes) (ps qs : List Piece) :
    storedFrom seen (ps ++ qs) = storedFrom (storedFrom seen ps) qs :=
  List.foldl_append

@[simp] theorem body_append (strs : List Bytes) (ps qs : List Piece) :
    body strs (ps ++ qs) = body strs ps ++ body strs qs :=
  List.flatMap_append

theorem prefix_storedFrom (ps : List Piece) (seen : List Bytes) : seen <+: storedFrom seen ps := by
  induction ps generalizing seen with
  | nil => exact List.prefix_refl seen
  | cons p ps ih =>
    refine List.IsPrefix.trans ?_ (ih (p.pool seen))
    cases p with
    | store s =>
      rw [Piece.pool_store]
      split_ifs
      · exact List.prefix_refl seen
      · exact List.prefix_append seen [s]
    | _ => exact List.prefix_refl seen

/-- A string that is stored keeps its number. -/
theorem prefix_stored {ps qs : List Piece} (h : ps <+: qs) : stored ps <+: stored qs := by
  obtain ⟨rest, rfl⟩ := h
  rw [stored, stored, storedFrom_append]
  exact prefix_storedFrom rest _

/-- What is stored is a string of a piece, or was there. -/
theorem mem_storedFrom {s : Bytes} {ps : List Piece} {seen : List Bytes} :
    s ∈ storedFrom seen ps ↔ s ∈ seen ∨ .store s ∈ ps := by
  induction ps generalizing seen with
  | nil => simp [storedFrom]
  | cons p ps ih =>
    have hcons : storedFrom seen (p :: ps) = storedFrom (p.pool seen) ps := rfl
    rw [hcons, ih, List.mem_cons]
    cases p with
    | store s' =>
      have hpool : s ∈ Piece.pool (.store s') seen ↔ s ∈ seen ∨ s = s' := by
        rw [Piece.pool_store]
        split_ifs with hs'
        · exact ⟨Or.inl, fun h => h.elim id fun h => h ▸ hs'⟩
        · simp
      rw [hpool, Piece.store.injEq, or_assoc]
    | tag | string => simp [Piece.pool]

/-- The bytes of pieces stay the same while the pool grows. -/
theorem body_mono {strs strs' : List Bytes} (h : strs <+: strs') {ps : List Piece}
    (hs : ∀ s, .string s ∈ ps → s ∈ strs) : body strs' ps = body strs ps := by
  refine List.flatMap_congr fun p hp => ?_
  cases p with
  | string s => rw [Piece.bytes, Piece.bytes, Doc.stringIndex_of_prefix h (hs s hp)]
  | _ => rfl

namespace Doc

mutual

/-- The pieces of a document, up to where it breaks off. -/
def pieces : Doc → List Piece
  | nil => [.tag .tNil 0]
  | boolean b => [.tag (if b then .tTrue else .tFalse) 0]
  | integer i => [.tag (integerType i) i]
  | double x => [.tag .tDouble x.bits.toNat]
  | string s => if s = [] then [.tag .tString0 0] else [.store s, .string s]
  | emptyTable => [.tag .tTable0 0]
  | array size items => .tag (lengthType .tArray0 size) size :: piecesItems items
  | table size items => .tag (lengthType .tTable0 size) size :: piecesItems items
  | stop _ => []

def piecesItems : List Doc → List Piece
  | [] => []
  | d :: ds => d.pieces ++ if d.Complete then piecesItems ds else []

end

mutual

/-- The strings of a document are those that its pieces store. -/
theorem collect_eq : ∀ (d : Doc) (seen : List Bytes), d.Complete →
    d.collect seen = storedFrom seen d.pieces
  | string s, seen, _ => by
    rw [collect, pieces]
    by_cases hs : s = []
    · rw [if_pos (Or.inl hs), if_pos hs]
      rfl
    · rw [if_neg hs]
      simp only [hs, false_or]
      exact (Piece.pool_store s seen).symm
  | array _ items, seen, hc => collectItems_eq items seen (stopsItems_eq_none.mp hc)
  | table _ items, seen, hc => collectItems_eq items seen (stopsItems_eq_none.mp hc)
  | nil, _, _ | boolean _, _, _ | integer _, _, _ | double _, _, _ | emptyTable, _, _ => rfl
  | stop _, _, hc => by cases hc

theorem collectItems_eq : ∀ (ds : List Doc) (seen : List Bytes), (∀ d ∈ ds, d.Complete) →
    collectItems ds seen = storedFrom seen (piecesItems ds)
  | [], _, _ => rfl
  | d :: ds, seen, hc => by
    have hd := hc d (List.mem_cons_self ..)
    rw [collectItems, piecesItems, if_pos hd, storedFrom_append, collect_eq d seen hd,
      collectItems_eq ds _ fun d' h' => hc d' (List.mem_cons_of_mem _ h')]

end

mutual

/-- The bytes of a document are those of its pieces. -/
theorem encode_eq (strs : List Bytes) : ∀ (d : Doc), d.Complete → d.encode strs = body strs d.pieces
  | string s, _ => by
    rw [encode, pieces]
    split_ifs <;> simp [body, Piece.bytes]
  | array _ items, hc => by
    rw [encode, pieces, encodeItems_eq strs items (stopsItems_eq_none.mp hc)]
    rfl
  | table _ items, hc => by
    rw [encode, pieces, encodeItems_eq strs items (stopsItems_eq_none.mp hc)]
    rfl
  | nil, _ | boolean _, _ | integer _, _ | double _, _ | emptyTable, _ => by
    simp [encode, pieces, body, Piece.bytes]
  | stop _, hc => by cases hc

theorem encodeItems_eq (strs : List Bytes) : ∀ (ds : List Doc), (∀ d ∈ ds, d.Complete) →
    encodeItems strs ds = body strs (piecesItems ds)
  | [], _ => rfl
  | d :: ds, hc => by
    have hd := hc d (List.mem_cons_self ..)
    rw [encodeItems, piecesItems, if_pos hd, body_append, encode_eq strs d hd,
      encodeItems_eq strs ds fun d' h' => hc d' (List.mem_cons_of_mem _ h')]

end

mutual

/-- A string is stored before its tag is written, and is not empty. -/
theorem mem_pieces : ∀ (d : Doc) (s : Bytes), (.string s ∈ d.pieces ↔ .store s ∈ d.pieces) ∧
    (.store s ∈ d.pieces → s ≠ [])
  | string s', s => by
    rw [pieces]
    split_ifs with h
    · simp
    · constructor
      · simp
      · intro hs
        simp only [List.mem_cons, Piece.store.injEq, reduceCtorEq, List.not_mem_nil, or_false]
          at hs
        rwa [hs]
  | array _ items, s => by
    simpa [pieces] using mem_piecesItems items s
  | table _ items, s => by
    simpa [pieces] using mem_piecesItems items s
  | nil, _ | boolean _, _ | integer _, _ | double _, _ | emptyTable, _ | stop _, _ => by
    simp [pieces]

theorem mem_piecesItems : ∀ (ds : List Doc) (s : Bytes),
    (.string s ∈ piecesItems ds ↔ .store s ∈ piecesItems ds) ∧
      (.store s ∈ piecesItems ds → s ≠ [])
  | [], _ => by simp [piecesItems]
  | d :: ds, s => by
    have hd := mem_pieces d s
    have hds := mem_piecesItems ds s
    rw [piecesItems]
    split_ifs
    · simp only [List.mem_append]
      exact ⟨or_congr hd.1 hds.1, fun h => h.elim hd.2 hds.2⟩
    · rw [List.append_nil]
      exact hd

end

end Doc

/-! ### The size of the pool -/

/-- The pool counts every string stored, and knows no other. -/
structure Pool.Counts (pool : Pool) (strs : List Bytes) : Prop where
  known : ∀ s, ¬ pool.IsNew s → s ∈ strs
  length_le : strs.length ≤ pool.size

namespace Pool.Counts

variable {pool : Pool} {strs : List Bytes}

theorem store (hk : pool.Counts strs) (s : Bytes) :
    (pool.store s).2.Counts (if s ∈ strs then strs else strs ++ [s]) := by
  rw [Pool.store]
  by_cases hnew : pool.IsNew s
  · rw [if_pos hnew]
    have hle := hk.length_le
    constructor
    · intro s' hs'
      by_cases heq : s = s'
      · subst heq
        split_ifs with hs
        · exact hs
        · exact List.mem_append_right _ (List.mem_singleton_self s)
      · -- the entry of another string is the one it was
        have hget := LuaTable.get_set_of_ne pool.handle
          (show (LuaValue.string s).rawEqual (.string s') = false by simp [LuaValue.rawEqual, heq])
          (integer ↑(pool.size + 1))
        have hmem := hk.known s' fun h => hs' (hget.trans h)
        split_ifs
        · exact hmem
        · exact List.mem_append_left _ hmem
    · split_ifs
      · exact Nat.le_succ_of_le hle
      · simpa using hle
  · rw [if_neg hnew, if_pos (hk.known s hnew)]
    exact hk

mutual

theorem emit : ∀ (d : Doc) (e : EmitState) (seen : List Bytes), d.Complete →
    e.pool.Counts seen → (d.emit e).pool.Counts (d.collect seen)
  | .string s, e, seen, _, hk => by
    rw [Doc.emit, Doc.collect]
    by_cases hs : s = []
    · subst hs
      exact hk
    · have hl : s.length ≠ 0 := fun h => hs (List.length_eq_zero_iff.mp h)
      simp only [hs, hl, false_or, if_false]
      exact hk.store s
  | .array size items, e, seen, hc, hk =>
    emitItems items { e with stream := writeLength e.stream .tArray0 size } seen
      (Doc.stopsItems_eq_none.mp hc) hk
  | .table size items, e, seen, hc, hk =>
    emitItems items { e with stream := writeLength e.stream .tTable0 size } seen
      (Doc.stopsItems_eq_none.mp hc) hk
  | .nil, _, _, _, hk | .boolean _, _, _, _, hk | .integer _, _, _, _, hk
  | .double _, _, _, _, hk | .emptyTable, _, _, _, hk => hk
  | .stop _, _, _, hc, _ => by cases hc

theorem emitItems : ∀ (ds : List Doc) (e : EmitState) (seen : List Bytes),
    (∀ d ∈ ds, d.Complete) → e.pool.Counts seen →
    (Doc.emitItems ds e).pool.Counts (Doc.collectItems ds seen)
  | [], _, _, _, hk => hk
  | d :: ds, e, seen, hc, hk => by
    have hd := hc d (List.mem_cons_self ..)
    rw [Doc.emitItems, if_pos hd, Doc.collectItems]
    exact emitItems ds _ _ (fun d' h' => hc d' (List.mem_cons_of_mem _ h')) (emit d e seen hd hk)

end

end Pool.Counts

/-! ### Pool and output after some pieces -/

/-- The pool and the output are those after the pieces `ps`, as far as a Lua table can take the
strings. -/
structure Kept (pool : Pool) (data : Bytes) (ps : List Piece) : Prop where
  counts : pool.Counts (stored ps)
  holds : (stored ps).length < 2 ^ 31 → pool.Holds (stored ps)
  data_eq : (stored ps).length < 2 ^ 31 → data = body (stored ps) ps
  /-- Every tag of a string comes behind the storing of the string. -/
  tags : ∀ s, .string s ∈ ps → s ∈ stored ps

namespace Kept

variable {pool : Pool} {data : Bytes} {ps : List Piece}

theorem start : Kept .empty [] [] where
  counts := ⟨fun s hs => absurd rfl hs, le_rfl⟩
  holds _ := Pool.Holds.start
  data_eq _ := rfl
  tags := by simp

/-- A tag is written. -/
theorem tag (hk : Kept pool data ps) (type : BinaryType) (payload : Int) :
    Kept pool (data ++ type.node payload) (ps ++ [.tag type payload]) := by
  have hstored : stored (ps ++ [.tag type payload]) = stored ps := by
    rw [stored, storedFrom_append]
    rfl
  constructor
  · rw [hstored]
    exact hk.counts
  · rw [hstored]
    exact hk.holds
  · intro hlen
    rw [hstored] at hlen ⊢
    rw [body_append, hk.data_eq hlen]
    simp [body, Piece.bytes]
  · intro s hs
    rw [hstored]
    exact hk.tags s (by simpa using hs)

/-- A string is stored. -/
theorem store (hk : Kept pool data ps) {s : Bytes} (hne : s ≠ []) :
    Kept (pool.store s).2 data (ps ++ [.store s]) := by
  have hstored : stored (ps ++ [.store s]) = if s ∈ stored ps then stored ps else stored ps ++ [s] := by
    rw [stored, storedFrom_append]
    exact Piece.pool_store s _
  have htags : ∀ s', .string s' ∈ ps ++ [.store s] → s' ∈ stored ps := fun s' hs' =>
    hk.tags s' (by simpa using hs')
  have hpre := prefix_stored (List.prefix_append ps [.store s])
  constructor
  · rw [hstored]
    exact hk.counts.store s
  · intro hlen
    have hholds := hk.holds (hpre.length_le.trans_lt hlen)
    rw [hstored] at hlen ⊢
    split_ifs at hlen ⊢ with hs
    · rw [Pool.store, if_neg fun hn => (hholds.isNew_iff s).mp hn hs]
      exact hholds
    · exact (hholds.store hne hs (by simpa using hlen)).1
  · intro hlen
    rw [body_mono hpre htags, body_append, hk.data_eq (hpre.length_le.trans_lt hlen)]
    simp [body, Piece.bytes]
  · exact fun s' hs' => hpre.subset (htags s' hs')

/-- A complete document is emitted. -/
theorem emit {stream : BinaryWriter} (hk : Kept pool stream.data ps) {d : Doc} (hc : d.Complete) :
    Kept (d.emit ⟨pool, stream⟩).pool (d.emit ⟨pool, stream⟩).stream.data (ps ++ d.pieces) := by
  have hcollect : d.collect (stored ps) = stored (ps ++ d.pieces) := by
    rw [d.collect_eq _ hc, stored, stored, storedFrom_append]
  have hpre := prefix_stored (List.prefix_append ps d.pieces)
  -- as long as the numbers fit, the bytes are those of the encoding with the pool so far
  have hemit : (stored (ps ++ d.pieces)).length < 2 ^ 31 →
      (d.emit ⟨pool, stream⟩).pool.Holds (stored (ps ++ d.pieces)) ∧
        (d.emit ⟨pool, stream⟩).stream.data =
          stream.data ++ d.encode (stored (ps ++ d.pieces)) := by
    intro hlen
    rw [← hcollect] at hlen ⊢
    exact Doc.emit_eq hlen d ⟨pool, stream⟩ (stored ps) hc
      (hk.holds ((hcollect ▸ hpre).length_le.trans_lt hlen)) (List.prefix_refl _)
  constructor
  · rw [← hcollect]
    exact Pool.Counts.emit d ⟨pool, stream⟩ _ hc hk.counts
  · exact fun hlen => (hemit hlen).1
  · intro hlen
    rw [(hemit hlen).2, hk.data_eq (hpre.length_le.trans_lt hlen), body_append, d.encode_eq _ hc,
      body_mono hpre hk.tags]
  · intro s hs
    rcases List.mem_append.mp hs with hs | hs
    · exact hpre.subset (hk.tags s hs)
    · exact mem_storedFrom.mpr (Or.inr (List.mem_append_right _ ((Doc.mem_pieces _ _).1.mp hs)))

end Kept

end LuaBinaryTable
