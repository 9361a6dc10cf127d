import LuaBinaryTable.Reader.Equiv.ParserValue

/-!
# `parseBinaryTable` follows the document

`decodes_parseBinaryTable`: what `parseBinaryTable` does is what `Reading.outcome` and
`Reading.slots` say of the document that `readDocument` reads.
-/

namespace LuaBinaryTable

namespace Reader

open LuaState

variable {sizes : TableSizes}

/-- The message of a failed parse. -/
def message : Reading → Bytes
  | .invalidFormat => invalidFormatMessage
  | .invalidVersion version => invalidVersionMessage version
  | _ => parseFailedMessage

/-- The table of a pool. -/
def poolTable (strs : List Bytes) : LuaTable := fillPool 0 LuaTable.empty strs

/-- A run of `parseBinaryTable` from the state `L` that follows what is read. -/
def Decodes (sizes : TableSizes) (L : LuaState) (rd : Reading) :
    Run ParseState (Nat × ParseState) → Prop
  | .returns (n, s) =>
    (n = 1 ∧ rd.outcome sizes = .complete ∧ ∃ strs d, rd = .body strs d s.reader ∧
      s.L = ⟨(d.materialise (L.heap ++ [poolTable strs])).1 :: L.stack,
        (d.materialise (L.heap ++ [poolTable strs])).2, L.thread,
        max L.peak (L.gettop + rd.slots sizes)⟩) ∨
    (n = 2 ∧ rd.outcome sizes = .fails ∧
      s.L.stack = .string (message rd) :: .nil :: L.stack ∧
      s.L.peak = max L.peak (L.gettop + rd.slots sizes))
  | .raises s => rd.outcome sizes = .raises ∧ s.L.peak = max L.peak (L.gettop + rd.slots sizes)
  | .diverges => rd.outcome sizes = .diverges

/-! ### The pool -/

theorem modify_fillPool_nil (h : List LuaTable) (ref i : Nat) :
    h.modify ref (fillPool i · []) = h :=
  List.modify_id ref h

theorem length_readPool : ∀ (n : Nat) (r : BinaryReader), (readPool n r).2.1 = true →
    (readPool n r).1.length = n
  | 0, _, _ => rfl
  | n + 1, r, h => by
    simp only [readPool] at h ⊢
    split_ifs at h ⊢
    split at h
    · cases h
    · rename_i str r' hb
      simp only at h ⊢
      rw [List.length_cons, length_readPool n r' h]

/-- The loop over the pool stores the strings that `readPool` reads. -/
theorem parseLoop_eq (S : List LuaValue) (ref : Nat) (T : Thread) :
    ∀ (n i : Nat) (h : List LuaTable) (p : Nat) (r : BinaryReader) (tr : List ParseEvent),
      S.length + 1 ≤ p → ∃ tr',
      StringTable.parseLoop n i ⟨⟨.table ref :: S, h, T, p⟩, r, tr⟩ =
        ((readPool n r).2.1,
          ⟨⟨.table ref :: S, h.modify ref (fillPool i · (readPool n r).1), T,
            max p (S.length + 1 + min 1 (readPool n r).1.length)⟩, (readPool n r).2.2, tr'⟩)
  | 0, i, h, p, r, tr, hle => ⟨tr, by
    simp only [StringTable.parseLoop, readPool, modify_fillPool_nil, List.length_nil]
    rw [Nat.max_eq_left (by omega)]⟩
  | n + 1, i, h, p, r, tr, hle => by
    simp only [StringTable.parseLoop, readPool, ParseState.log, ParseState.readNumber]
    -- a string of length zero ends the pool, as one that is cut short does
    by_cases hz : leNat (r.readNumber stringLengthSize).1 = 0
    · simp only [hz, if_true, modify_fillPool_nil, List.length_nil]
      exact ⟨_, by rw [Nat.max_eq_left (by omega)]⟩
    · simp only [hz, if_false]
      cases hb : (r.readNumber stringLengthSize).2.readBytes
          (leNat (r.readNumber stringLengthSize).1) with
      | mk str r' =>
        cases str with
        | none =>
          simp only [modify_fillPool_nil, List.length_nil]
          exact ⟨_, by rw [Nat.max_eq_left (by omega)]⟩
        | some str =>
          simp only [pushlstring, push_mk, rawseti_mk]
          obtain ⟨tr', h'⟩ := parseLoop_eq S ref T n (i + 1)
            (h.modify ref (·.set (integer (toInt32 (toInt32 i + 1))) (.string str)))
            (max p ((LuaValue.table ref :: S).length + 1)) r'
            (.poolRecord r.p :: tr) (by omega)
          refine ⟨tr', h'.trans ?_⟩
          -- only the first string takes a slot: the later ones use it again
          have hpeak : max (max p ((LuaValue.table ref :: S).length + 1))
              (S.length + 1 + min 1 (readPool n r').1.length) =
              max p (S.length + 1 + min 1 (str :: (readPool n r').1).length) := by
            simp only [List.length_cons]
            omega
          rw [hpeak, List.modify_modify_eq]
          rfl

theorem strings_fillPool : ∀ (strs : List Bytes) (i : Nat) (t : LuaTable),
    (∀ k, t.get k = .nil ∨ ∃ str, t.get k = .string str) →
    ∀ k, (fillPool i t strs).get k = .nil ∨ ∃ str, (fillPool i t strs).get k = .string str
  | [], _, _, ht, k => ht k
  | str :: strs, i, t, ht, k => by
    refine strings_fillPool strs (i + 1) _ (fun k' => ?_) k
    rcases LuaTable.get_set_or t (integer (toInt32 (toInt32 i + 1))) (.string str) k' with h | h
    · rw [h]
      exact ht k'
    · exact Or.inr ⟨str, h⟩

/-- `parse` reads the pool into a new table. -/
theorem parse_eq (sizes : TableSizes) (L : LuaState) (r : BinaryReader) (tr : List ParseEvent)
    {size : Nat} {r₁ r₂ : BinaryReader} {strs : List Bytes} {ok : Bool}
    (hsize : leNat (r.readNumber stringPoolLengthSize).1 = size)
    (hr₁ : (r.readNumber stringPoolLengthSize).2 = r₁)
    (hpool : readPool size r₁ = (strs, ok, r₂)) :
    ∃ tr', StringTable.parse sizes ⟨L, r, tr⟩ =
      if sizes (toInt32 size) 0 then
        .returns (ok, { handle := L.gettop + 1, size := size },
          ⟨⟨.table L.heap.length :: L.stack, L.heap ++ [poolTable strs], L.thread,
            max (max L.peak (L.gettop + 1)) (L.gettop + 1 + min 1 strs.length)⟩, r₂, tr'⟩)
      else .raises ⟨L, r₁, tr'⟩ := by
  simp only [StringTable.parse, ParseState.readNumber, ParseState.log, ParseState.callLua,
    createtable, hsize, hr₁]
  by_cases hs : sizes (toInt32 size) 0 = true
  · simp only [hs, if_true, Run.returns_bind]
    obtain ⟨tr', h⟩ := parseLoop_eq L.stack L.heap.length L.thread size 0
      (L.heap ++ [LuaTable.empty]) (max L.peak (L.gettop + 1)) r₁
      (.createtable size (toInt32 size) r₁.p :: tr) (le_max_right _ _)
    rw [modify_append_length, hpool] at h
    refine ⟨tr', ?_⟩
    rw [newtable, push]
    simp only [gettop] at h ⊢
    rw [h]
    rfl
  · simp only [hs]
    exact ⟨_, rfl⟩

/-! ### The whole document -/

/-- A failure: the state as at entry with `nil` and the message on the stack. -/
theorem decodes_failWith {L : LuaState} {rd : Reading} {s : ParseState} {m : Bytes}
    (ho : rd.outcome sizes = .fails) (hm : message rd = m) (hs : s.L.stack = L.stack)
    (hp : max s.L.peak (L.gettop + 2) = max L.peak (L.gettop + rd.slots sizes)) :
    Decodes sizes L rd (.returns (failWith s m)) := by
  refine Or.inr ⟨rfl, ho, ?_, ?_⟩
  · rw [hm, ← hs]
    rfl
  · rw [← hp]
    simp only [pushlstring, pushnil, push, List.length_cons, hs, gettop]
    omega

theorem poolAt_poolTable (L : LuaState) (strs : List Bytes) :
    PoolAt { handle := L.gettop + 1, size := strs.length } L.heap.length (poolTable strs)
      (.table L.heap.length :: L.stack) (L.heap ++ [poolTable strs]) where
  pos := Nat.succ_pos _
  le := le_rfl
  onStack := if_pos rfl
  inHeap := by simp
  strings := strings_fillPool strs 0 LuaTable.empty fun _ => Or.inl rfl

/-- The end of `parseBinaryTable`, after `parserValue`. -/
theorem decodes_body {L : LuaState} {strs : List Bytes} {d : Doc} {r : BinaryReader}
    {x : Run ParseState (Bool × ParseState)} (hs : sizes (toInt32 strs.length) 0 = true)
    (hx : Follows sizes d (.table L.heap.length :: L.stack) (L.heap ++ [poolTable strs])
      L.thread (max (max L.peak (L.gettop + 1)) (L.gettop + 1 + min 1 strs.length)) r x) :
    Decodes sizes L (.body strs d r) (x >>= fun a =>
      if a.1 then
        .returns (1, { a.2 with
          L := StringTable.destroy { handle := L.gettop + 1, size := strs.length } a.2.L })
      else .returns (failWith { a.2 with L := a.2.L.settop L.gettop } parseFailedMessage)) := by
  have hout : (Reading.body strs d r).outcome sizes = d.outcome sizes := by
    rw [Reading.outcome, if_pos hs]
  have hslots : (Reading.body strs d r).slots sizes =
      max (1 + max (min 1 strs.length) (d.slots sizes))
        (if d.outcome sizes = .fails then 2 else 0) := by
    rw [Reading.slots, if_pos hs]
  match x, hx with
  -- the value is on top of the pool, which `remove` takes out below it
  | .returns (true, s), ⟨ho, hL, hr⟩ =>
    refine Or.inl ⟨rfl, hout.trans ho, strs, d, by rw [← hr], ?_⟩
    have hone := Doc.one_le_slots ho
    simp only [StringTable.destroy, hL, hslots, ho]
    have hrem : removeSlot ((d.materialise (L.heap ++ [poolTable strs])).1 ::
        .table L.heap.length :: L.stack) (L.gettop + 1) =
        (d.materialise (L.heap ++ [poolTable strs])).1 :: L.stack := by
      rw [← List.singleton_append, removeSlot_append (by simp [gettop]), gettop, removeSlot_top,
        List.singleton_append]
    rw [if_pos (by simp), remove, absIndex_natCast (Nat.succ_pos _), hrem]
    congr 1
    simp only [List.length_cons, gettop, reduceCtorEq, if_false]
    omega
  -- whatever the failed levels left above the pool, `settop` drops it
  | .returns (false, s), ⟨ho, hst, hpk⟩ =>
    obtain ⟨extra, hst⟩ := hst
    refine decodes_failWith (hout.trans ho) rfl
      (settop_append (extra ++ [.table L.heap.length]) (by rw [← hst]; simp)) ?_
    simp only [settop, hpk, hslots, ho, if_true, gettop, List.length_cons]
    omega
  | .raises s, ⟨ho, hpk⟩ =>
    refine ⟨hout.trans ho, ?_⟩
    rw [hpk, hslots, ho, if_neg (by decide)]
    simp only [gettop, List.length_cons]
    omega
  | .diverges, ho => exact hout.trans ho

/-- `parseBinaryTable` follows the document that `readDocument` reads. -/
theorem decodes_parseBinaryTable (sizes : TableSizes) (L : LuaState) (data : Bytes)
    (hle : L.gettop ≤ L.peak) :
    Decodes sizes L (readDocument data) (parseBinaryTable sizes L data) := by
  simp only [parseBinaryTable, readDocument, ParseState.readNumber]
  by_cases hmagic : leNat (BinaryReader.readNumber 2 ⟨data, 0⟩).1 ≠ magicNumber
  · simp only [hmagic, ne_eq, not_false_eq_true, if_true, Run.pure_eq]
    exact decodes_failWith rfl rfl rfl rfl
  · simp only [hmagic, if_false]
    generalize hr : (BinaryReader.readNumber 2 ⟨data, 0⟩).2 = r
    by_cases hversion : leNat (r.readNumber 2).1 ≠ luabtVersion
    · simp only [hversion, ne_eq, not_false_eq_true, if_true, Run.pure_eq]
      exact decodes_failWith rfl rfl rfl rfl
    · simp only [hversion, if_false]
      rcases hpool : readPool (leNat ((r.readNumber 2).2.readNumber stringPoolLengthSize).1)
        ((r.readNumber 2).2.readNumber stringPoolLengthSize).2 with ⟨strs, ok, r₂⟩
      obtain ⟨tr', hparse⟩ := parse_eq sizes L (r.readNumber 2).2 [] rfl rfl hpool
      rw [hparse]
      generalize leNat ((r.readNumber 2).2.readNumber stringPoolLengthSize).1 = size at *
      have hlen : ok = true → strs.length = size := by
        have := length_readPool size ((r.readNumber 2).2.readNumber stringPoolLengthSize).2
        rw [hpool] at this
        exact this
      -- the table of the pool is asked for before the first string is read
      by_cases hs : sizes (toInt32 size) 0 = true
      · rw [if_pos hs, Run.returns_bind]
        cases ok with
        | false =>
          simp only [Bool.false_eq_true, if_false, Run.pure_eq, Run.returns_bind]
          refine decodes_failWith (by rw [Reading.outcome, if_pos hs]) rfl
            (settop_append [_] rfl) ?_
          simp only [settop, gettop, Reading.slots, hs, if_true]
          omega
        | true =>
          obtain rfl := hlen rfl
          simp only [if_true]
          exact decodes_body hs (follows_parserValue sizes _ L.heap.length (poolTable strs)
            (data.length + 1) _ _ _ _ r₂ tr' (poolAt_poolTable L strs) (by simp [gettop]))
      · rw [if_neg hs]
        have hpk : L.peak = max L.peak (L.gettop + 0) := by omega
        cases ok with
        | false =>
          exact ⟨by rw [Reading.outcome, if_neg hs], by rw [Reading.slots, if_neg hs]; exact hpk⟩
        | true =>
          obtain rfl := hlen rfl
          exact ⟨by rw [Reading.outcome, if_neg hs], by rw [Reading.slots, if_neg hs]; exact hpk⟩

end Reader

end LuaBinaryTable
