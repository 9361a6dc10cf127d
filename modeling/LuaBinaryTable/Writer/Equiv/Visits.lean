import LuaBinaryTable.Document.Pieces
import LuaBinaryTable.Writer.Equiv.WriteBinaryTable
import LuaBinaryTable.Writer.Visits

/-!
# The pool in every state of a traversal

In every state that a traversal visits the string table holds the strings stored so far, and the
output refers to them (`journey_visits`).  From the start of `writeBinaryTable` on, this is an
invariant of the whole run (`writeValue_keeps_pool`).
-/

namespace LuaBinaryTable

open LuaState

variable {env : Env} {h₀ : List LuaTable} {hr ir : Nat}

/-- The state has come to the pieces `ps`. -/
def At (h₀ : List LuaTable) (hr ir : Nat) (ps : List Piece) (s : WriteState) : Prop :=
  ∃ pool, StringsAt h₀ hr ir s.strTable pool s.L.stack s.L.heap ∧ Kept pool s.stream.data ps

/-- The states have come to more and more pieces, from `ps` up to `ps'`. -/
inductive Journey (h₀ : List LuaTable) (hr ir : Nat) :
    List Piece → List WriteState → List Piece → Prop
  | nil {ps ps' : List Piece} (h : ps <+: ps') : Journey h₀ hr ir ps [] ps'
  | cons {ps qs ps' : List Piece} {s : WriteState} {ss : List WriteState} (h : ps <+: qs)
      (hs : At h₀ hr ir qs s) (rest : Journey h₀ hr ir qs ss ps') :
      Journey h₀ hr ir ps (s :: ss) ps'

namespace Journey

variable {ps qs rs : List Piece} {ss ts : List WriteState}

theorem prefix_le (hj : Journey h₀ hr ir ps ss qs) : ps <+: qs := by
  induction hj with
  | nil h => exact h
  | cons h _ _ ih => exact h.trans ih

theorem append (hj : Journey h₀ hr ir ps ss qs) (hj' : Journey h₀ hr ir qs ts rs) :
    Journey h₀ hr ir ps (ss ++ ts) rs := by
  induction hj with
  | nil h =>
    cases hj' with
    | nil h' => exact .nil (h.trans h')
    | cons h' hs rest => exact .cons (h.trans h') hs rest
  | cons h hs _ ih => exact .cons h hs (ih hj')

theorem mono (hj : Journey h₀ hr ir ps ss qs) (h : qs <+: rs) : Journey h₀ hr ir ps ss rs := by
  have := hj.append (.nil h)
  rwa [List.append_nil] at this

/-- The pieces at which the states stand. -/
theorem exists_pieces (hj : Journey h₀ hr ir ps ss qs) :
    ∃ pss : List (List Piece), List.Forall₂ (At h₀ hr ir) pss ss ∧ pss.Pairwise (· <+: ·) ∧
      ∀ ps' ∈ pss, ps <+: ps' ∧ ps' <+: qs := by
  induction hj with
  | nil h => exact ⟨[], .nil, .nil, by simp⟩
  | @cons ps qs ps' s ss h hs rest ih =>
    obtain ⟨pss, hall, hpair, hbound⟩ := ih
    refine ⟨qs :: pss, .cons hs hall, List.pairwise_cons.mpr ⟨fun ps' h' => (hbound ps' h').1, hpair⟩,
      fun ps' h' => ?_⟩
    rcases List.mem_cons.mp h' with rfl | h'
    · exact ⟨h, rest.prefix_le⟩
    · exact ⟨h.trans (hbound ps' h').1, (hbound ps' h').2⟩

end Journey

/-- A writer whose visits go through the pieces of the layout. -/
def VisitsLayout (h₀ : List LuaTable) (hr ir : Nat) (lay : LuaValue → Doc) (vs : ValueVisits) :
    Prop :=
  ∀ S h T p st pool stream idx ps, StringsAt h₀ hr ir st pool S h → Kept pool stream.data ps →
    ValidIndex S idx → Closed h₀ (valueAt S idx) → S.length ≤ p →
    Journey h₀ hr ir ps (vs idx ⟨⟨S, h, T, p⟩, st, stream⟩) (ps ++ (lay (valueAt S idx)).pieces)

/-- Where the writing of an item ends, the journey goes on or is over. -/
theorem journey_writes {d : Doc} {pool : Pool} {stream : BinaryWriter} {st : StringTable}
    {S : List LuaValue} {h : List LuaTable} {T : Thread} {p m : Nat} {ps rest : List Piece}
    (hk : Kept pool stream.data ps) {f : WriteState → List WriteState}
    (hok : d.Complete → ∀ st' h' stream' pool', StringsAt h₀ hr ir st' pool' S h' →
      Kept pool' stream'.data (ps ++ d.pieces) → SamePlaces st st' → Keeps hr ir h h' →
      Journey h₀ hr ir (ps ++ d.pieces)
        (f ⟨⟨S, h', T, max p (S.length + m)⟩, st', stream'⟩) (ps ++ d.pieces ++ rest)) :
    ∀ {x : Run LuaState (Bool × WriteState)},
      Writes h₀ hr ir d.stops m (d.emit ⟨pool, stream⟩) st S h T p x →
      Journey h₀ hr ir (ps ++ d.pieces) (match x with | .returns (true, s) => f s | _ => [])
        (ps ++ (d.pieces ++ if d.Complete then rest else [])) := by
  intro x hx
  rw [← List.append_assoc]
  match x, hx with
  | .returns (true, ⟨L, st', stream'⟩), ⟨hs, hstream, hsame, h', hL, hp, hkeep⟩ =>
    have hc : d.Complete := hs
    -- the item is complete, so the string table and the output are those behind its pieces
    cases hL
    cases hstream
    rw [if_pos hc]
    exact hok hc _ _ _ _ hp (hk.emit hc) hsame hkeep
  | .returns (false, s), _ => exact .nil (List.prefix_append _ _)
  | .diverges, _ => exact .nil (List.prefix_append _ _)

/-- The state of a return is the one behind the whole document. -/
theorem journey_returned {d : Doc} {pool : Pool} {stream : BinaryWriter} {st : StringTable}
    {S : List LuaValue} {h : List LuaTable} {T : Thread} {p m : Nat} {ps : List Piece}
    (hk : Kept pool stream.data ps) {x : Run LuaState (Bool × WriteState)}
    (hx : Writes h₀ hr ir d.stops m (d.emit ⟨pool, stream⟩) st S h T p x) :
    Journey h₀ hr ir (ps ++ d.pieces) (returned x) (ps ++ d.pieces) := by
  match x, hx with
  | .returns (true, ⟨L, st', stream'⟩), ⟨hs, hstream, _, h', hL, hp', _⟩ =>
    cases hL
    cases hstream
    exact .cons (List.prefix_refl _) ⟨_, hp', hk.emit hs⟩ (.nil (List.prefix_refl _))
  | .returns (false, s), _ => exact .nil (List.prefix_refl _)
  | .diverges, _ => exact .nil (List.prefix_refl _)

section Loops

variable {lay : LuaValue → Doc} {vw : ValueWriter} {vs : ValueVisits}
  (hvw : WritesLayout env h₀ hr ir lay vw) (hvs : VisitsLayout h₀ hr ir lay vs)
  {t : LuaTable} {ref : Nat} (ht : h₀[ref]? = some t)
  (hval : ∀ e ∈ t.entries, Closed h₀ e.2)

include hvw hvs ht hval

/-- The loop over the elements goes through the pieces of each. -/
theorem journey_arrayVisits {i : Nat} {S : List LuaValue} (hi : 0 < i)
    (hs : slot S i = .table ref) :
    ∀ (n j : Nat) (h : List LuaTable) (T : Thread) (p : Nat) (st : StringTable) (pool : Pool)
      (stream : BinaryWriter) (ps : List Piece), StringsAt h₀ hr ir st pool S h →
      Kept pool stream.data ps → S.length + 1 ≤ p →
      Journey h₀ hr ir ps (arrayVisits vw vs i n j ⟨⟨S, h, T, p⟩, st, stream⟩)
        (ps ++ Doc.piecesItems ((t.elements j n).map lay))
  | 0, j, h, T, p, st, pool, stream, ps, _, _, _ => .nil (List.prefix_append _ _)
  | n + 1, j, h, T, p, st, pool, stream, ps, hp, hk, hp' => by
    have hget : rawField h (slot S i) (integer j) = t.get (integer j) := by
      rw [hs, rawField, hp.table_of_source ht]
      rfl
    have hclosed : Closed h₀ (valueAt (t.get (integer j) :: S) (-1)) := by
      rw [valueAt_top]
      exact closed_get hval _
    -- what the element writes, and the states that are visited while it is written
    have hw := hvw (t.get (integer j) :: S) h T p st pool stream (-1) (hp.push _)
      (validIndex_top _ S) hclosed hp'
    have hv := hvs (t.get (integer j) :: S) h T p st pool stream (-1) ps (hp.push _) hk
      (validIndex_top _ S) hclosed hp'
    rw [valueAt_top] at hw hv
    rw [LuaTable.elements, List.map_cons, Doc.piecesItems, arrayVisits, rawgeti_mk _ _ _ _ hi, hget,
      Nat.max_eq_left (by omega)]
    refine hv.append (journey_writes hk
      (fun hc st' h' stream' pool' hp'' hk' hsame hkeep => ?_) hw)
    simp only [pop, List.drop_one, List.tail_cons]
    exact journey_arrayVisits hi hs n (j + 1) h' _ _ st' pool' stream' _
      (hp''.of_push (hsame.1 ▸ hp.handle_le) (hsame.2 ▸ hp.index_le)) hk' (by omega)

/-- The loop over the sorted keys goes through the pieces of each key and of its value. -/
theorem journey_hashVisits {i arr : Nat} {S : List LuaValue} (hi : 0 < i)
    (hle : i ≤ S.length) (hs : slot S i = .table ref) {a : LuaTable} (hhr : arr ≠ hr)
    (hir : arr ≠ ir) :
    ∀ (pre ks : List LuaValue) (h : List LuaTable) (T : Thread) (p : Nat) (st : StringTable)
      (pool : Pool) (stream : BinaryWriter) (ps : List Piece), a.entries = arrayEntries 1 (pre ++ ks) →
      (∀ k ∈ ks, Closed h₀ k) → h[arr]? = some a →
      StringsAt h₀ hr ir st pool (.table arr :: S) h → Kept pool stream.data ps →
      S.length + 2 ≤ p →
      Journey h₀ hr ir ps
        (hashVisits vw vs i ks.length (pre.length + 1) ⟨⟨.table arr :: S, h, T, p⟩, st, stream⟩)
        (ps ++ Doc.piecesItems ((t.alternate ks).map lay))
  | pre, [], h, T, p, st, pool, stream, ps, _, _, _, _, _, _ => .nil (List.prefix_append _ _)
  | pre, k :: ks, h, T, p, st, pool, stream, ps, ha, hkeys, harr, hp, hk, hp' => by
    have hclosedk : Closed h₀ (valueAt (k :: .table arr :: S) (-1)) := by
      rw [valueAt_top]
      exact hkeys k (List.mem_cons_self ..)
    have hclosedv : Closed h₀ (valueAt (t.get k :: .table arr :: S) (-1)) := by
      rw [valueAt_top]
      exact closed_get hval k
    have hitems : (t.alternate (k :: ks)).map lay =
        lay k :: lay (t.get k) :: (t.alternate ks).map lay := rfl
    have hw := hvw (k :: .table arr :: S) h T p st pool stream (-1) (hp.push _)
      (validIndex_top _ _) hclosedk hp'
    have hv := hvs (k :: .table arr :: S) h T p st pool stream (-1) ps (hp.push _) hk
      (validIndex_top _ _) hclosedk hp'
    rw [valueAt_top] at hw hv
    rw [hitems, Doc.piecesItems, List.length_cons, hashVisits, rawgeti, index2adr_top,
      rawField_key harr ha, push_mk,
      Nat.max_eq_left (show (LuaValue.table arr :: S).length + 1 ≤ p from hp')]
    refine hv.append (journey_writes hk
      (fun hc st' h' stream' pool' hp'' hk' hsame hkeep => ?_) hw)
    -- the key is written, and its slot takes the value
    have hpk := hp''.of_push (hsame.1 ▸ hp.handle_le) (hsame.2 ▸ hp.index_le)
    have hget : rawField h' (slot (.table arr :: S) i) k = t.get k := by
      rw [slot_of_le hle, hs, rawField, hpk.table_of_source ht]
      rfl
    generalize (lay k).threadAfter env ⟨pool, stream⟩ (k :: LuaValue.table arr :: S).length p T = T'
    generalize hpeak : max p ((k :: LuaValue.table arr :: S).length +
      (lay k).writeSlots ⟨pool, stream⟩) = p'
    have hle' : (t.get k :: LuaValue.table arr :: S).length ≤ p' := by
      simp only [List.length_cons] at hpeak ⊢
      omega
    have hw' := hvw (t.get k :: .table arr :: S) h' T' p' st' pool' stream' (-1) (hpk.push _)
      (validIndex_top _ _) hclosedv hle'
    have hv' := hvs (t.get k :: .table arr :: S) h' T' p' st' pool' stream' (-1) _ (hpk.push _) hk'
      (validIndex_top _ _) hclosedv hle'
    rw [valueAt_top] at hw' hv'
    rw [rawget_mk (.table arr :: S) _ _ _ hi (Nat.le_succ_of_le hle), hget, Doc.piecesItems]
    refine hv'.append (journey_writes hk'
      (fun hc' st'' h'' stream'' pool'' hp₃ hk'' hsame' hkeep' => ?_) hw')
    -- writing leaves every table but the two of the string table alone, the sorted keys too
    have harr' : h''[arr]? = some a := by
      have := (List.getElem?_eq_some_iff.mp harr).1
      rw [(hkeep.trans hkeep').old arr this hhr hir, harr]
    simp only [pop, List.drop_one, List.tail_cons]
    rw [show pre.length + 1 + 1 = (pre ++ [k]).length + 1 by simp]
    refine journey_hashVisits hi hle hs hhr hir (pre ++ [k]) ks h'' _ _ st'' pool'' stream'' _
      (by rw [ha, List.append_assoc, List.singleton_append])
      (fun k' hk' => hkeys k' (List.mem_cons_of_mem _ hk')) harr'
      (hp₃.of_push (hsame'.1 ▸ hpk.handle_le) (hsame'.2 ▸ hpk.index_le)) hk'' ?_
    simp only [List.length_cons] at hle' ⊢
    omega

end Loops

/-! ### Tables -/

section

variable {lay : LuaValue → Doc} {vw : ValueWriter} {vs : ValueVisits}
  (hvw : WritesLayout env h₀ hr ir lay vw) (hvs : VisitsLayout h₀ hr ir lay vs)
  {t : LuaTable} {ref : Nat} (ht : h₀[ref]? = some t)
  (hkey : ∀ e ∈ t.entries, Closed h₀ e.1) (hval : ∀ e ∈ t.entries, Closed h₀ e.2)
  (hperm : env.sort.Permutes)

include hvw hvs ht hkey hval hperm

/-- A table goes through its tag and through its items. -/
theorem journey_tableVisits {S : List LuaValue} {h : List LuaTable} (T : Thread) {p : Nat}
    {st : StringTable} {pool : Pool} (stream : BinaryWriter) {idx : Int} {ps : List Piece}
    (hp : StringsAt h₀ hr ir st pool S h) (hk : Kept pool stream.data ps)
    (hidx : ValidIndex S idx) (hv : valueAt S idx = .table ref) :
    Journey h₀ hr ir ps (tableVisits env vw vs idx ⟨⟨S, h, T, p⟩, st, stream⟩)
      (ps ++ (layoutTable env lay t).pieces) := by
  have hcount := countTableLength_eq (T := T) hidx.pos hidx.le hv (hp.table_of_source ht) p
  have habs : (if idx < 0 then ((LuaState.mk S h T p).gettop : Int) + idx + 1 else idx) =
      absIndex S.length idx := hidx.absolute
  have hobj := hidx.objlen_table hv (hp.table_of_source ht) T
  simp only [tableVisits, habs, hcount, hobj]
  unfold layoutTable
  by_cases hzero : t.entries.length = 0
  · -- an empty table is one byte, and nothing is visited below it
    simp only [hzero, if_true]
    exact .nil (List.prefix_append _ _)
  have hpeak : max p (S.length + 1 + min 1 t.entries.length) = max p (S.length + 2) := by omega
  rw [hpeak, if_neg hzero, if_neg hzero]
  by_cases harray : t.entries.length = t.border
  · have hbase : BinaryType.tArray0.IsLengthBase := Or.inr (Or.inl rfl)
    have hk' := hk.tag (lengthType .tArray0 t.entries.length) t.entries.length
    rw [← data_writeLength _ hbase] at hk'
    rw [if_pos harray, if_pos harray, Doc.pieces, List.append_cons]
    exact .cons (List.prefix_append _ _) ⟨pool, hp, hk'⟩ (journey_arrayVisits hvw hvs ht hval
      hidx.pos hv t.entries.length 1 h _ _ st pool _ _ hp hk' (by omega))
  · have hbase : BinaryType.tTable0.IsLengthBase := Or.inr (Or.inr rfl)
    have hk' := hk.tag (lengthType .tTable0 t.entries.length) t.entries.length
    rw [← data_writeLength _ hbase] at hk'
    rw [if_neg harray, if_neg harray, Doc.pieces, List.append_cons,
      getSortedTableKeys_eq env T hidx.pos hidx.le hv (hp.table_of_source ht)]
    have hmax : max (max p (S.length + 2)) (S.length + 5) = max p (S.length + 5) := by omega
    cases hsort : (env.sort t.keys).run (sortComp env) with
    | error ks =>
      -- the sort raised: the array and the library table stay on the stack
      exact .cons (List.prefix_append _ _) ⟨pool, hp, hk'⟩ (.cons (List.prefix_refl _)
        ⟨pool, ((hp.append _).push _).push _, hk'⟩ (.nil (List.prefix_append _ _)))
    | ok ks =>
      have hsome : t.sortedKeys env = some ks := by rw [LuaTable.sortedKeys, hsort]
      have hks := sortedKeys_perm hperm hsome
      have hcard : ks.length = t.entries.length := by
        rw [hks.length_eq, LuaTable.keys, List.length_map]
      have hhr := (List.getElem?_eq_some_iff.mp hp.handle_table).1
      have hir := (List.getElem?_eq_some_iff.mp hp.index_table).1
      simp only [hsome, hmax]
      rw [← hcard] at hk' ⊢
      refine .cons (List.prefix_append _ _) ⟨pool, hp, hk'⟩ (journey_hashVisits hvw hvs ht hval
        hidx.pos hidx.le hv hhr.ne' hir.ne' [] ks _ _ _ st pool _ _ (entries_sorted hks) ?_ (by simp)
        ((hp.append _).push _) hk' (by omega))
      intro k hm
      obtain ⟨e, he, rfl⟩ := List.mem_map.mp (hks.subset hm)
      exact hkey e he

end

/-! ### Values -/

/-- The traversal of a closed value goes through the pieces of its layout. -/
theorem journey_visits (hperm : env.sort.Permutes) :
    ∀ fuel, VisitsLayout h₀ hr ir (layout env h₀ fuel) (visits env fuel)
  | 0 => fun _ _ _ _ _ pool _ _ _ hp hk _ _ _ =>
    .cons (List.prefix_refl _) ⟨pool, hp, hk⟩ (.nil (List.prefix_append _ _))
  | fuel + 1 => by
    intro S h T p st pool stream idx ps hp hk hidx hclosed hle
    have hadr : index2adr ⟨S, h, T, p⟩ idx = valueAt S idx := rfl
    have hw := @writes_writeValue env h₀ _ _ hperm (fuel + 1) S h T p st pool stream idx hp hidx
      hclosed hle
    rw [visits, hadr]
    refine .cons (List.prefix_refl _) ⟨pool, hp, hk⟩ ?_
    refine Journey.append ?_ (journey_returned hk hw)
    cases hv : valueAt S idx with
    | string str =>
      simp only
      by_cases hempty : str.length = 0
      · rw [if_pos hempty]
        exact .nil (List.prefix_append _ _)
      -- the string is stored in one step, and its tag is written in the next
      · obtain ⟨st', h', hstore, hp', _, _, _⟩ := storeString_eq hp hv T p
        have hne : str ≠ [] := fun h => hempty (List.length_eq_zero_iff.mpr h)
        have hpieces : (layout env h₀ (fuel + 1) (.string str)).pieces =
            [.store str] ++ [.string str] := by
          rw [layout, Doc.pieces, if_neg hne]
          rfl
        have hpre : ps ++ [.store str] <+:
            ps ++ (layout env h₀ (fuel + 1) (.string str)).pieces := by
          rw [hpieces, ← List.append_assoc]
          exact List.prefix_append _ _
        simp only [hempty, if_false, hstore]
        exact .cons (List.prefix_append _ _) ⟨_, hp', hk.store hne⟩ (.nil hpre)
    | table ref =>
      rw [hv] at hclosed
      obtain ⟨t, ht, hkey, hval⟩ := hclosed.exists_table
      simp only [layout, ht]
      exact journey_tableVisits (writes_writeValue hperm fuel) (journey_visits hperm fuel) ht hkey
        hval hperm T stream hp hk hidx hv
    | _ => exact .nil (List.prefix_append _ _)

/-! ### The invariant of a whole run -/

/-- The string table holds the strings that the pieces `ps` store, and the output is theirs. -/
structure HoldsPool (ps : List Piece) (s : WriteState) : Prop where
  nodup : (stored ps).Nodup
  nonempty : [] ∉ stored ps
  size_eq : s.strTable.size = (stored ps).length
  cacheSize_eq : s.strTable.cacheSize = ((stored ps).map List.length).sum
  /-- The strings are numbered from 1 on. -/
  numbers : s.L.entriesAt s.strTable.handle = numbered 1 (stored ps)
  inverse : ∀ k v, (k, v) ∈ s.L.entriesAt s.strTable.handle ↔
    (v, k) ∈ s.L.entriesAt s.strTable.index2string
  data_eq : s.stream.data = body (stored ps) ps
  /-- The number in the tag of a string is that of the string. -/
  tags : ∀ str, .string str ∈ ps → 1 ≤ Doc.stringIndex (stored ps) str ∧
    Doc.stringIndex (stored ps) str ≤ s.strTable.size ∧
    (integer (Doc.stringIndex (stored ps) str), .string str) ∈
      s.L.entriesAt s.strTable.index2string

/-- A state at the pieces `ps`, as long as the strings fit a Lua table. -/
theorem At.holdsPool {ps : List Piece} {s : WriteState} (hs : At h₀ hr ir ps s)
    (hsize : s.strTable.size < 2 ^ 31) : HoldsPool ps s := by
  obtain ⟨pool, hp, hk⟩ := hs
  have hlen : (stored ps).length < 2 ^ 31 :=
    hk.counts.length_le.trans_lt (hp.size_eq ▸ hsize)
  have hholds := hk.holds hlen
  have hhandle : s.L.entriesAt s.strTable.handle = numbered 1 (stored ps) := by
    rw [← hholds.handle]
    exact entriesAt_mk hp.handle_pos hp.handle_slot hp.handle_table _
  have hindex : s.L.entriesAt s.strTable.index2string =
      (s.L.entriesAt s.strTable.handle).map Prod.swap := by
    rw [hhandle, swap_numbered, ← hholds.index2string]
    exact entriesAt_mk hp.index_pos hp.index_slot hp.index_table _
  have hinverse : ∀ k v, (k, v) ∈ s.L.entriesAt s.strTable.handle ↔
      (v, k) ∈ s.L.entriesAt s.strTable.index2string := by
    intro k v
    have hmem := List.mem_map_of_injective (@Prod.swap_injective LuaValue LuaValue)
      (a := (k, v)) (l := s.L.entriesAt s.strTable.handle)
    rw [hindex]
    exact hmem.symm
  have hsize_eq : s.strTable.size = (stored ps).length := hp.size_eq.trans hholds.size_eq
  refine ⟨hholds.nodup, hholds.nonempty, hsize_eq, hp.cacheSize_eq.trans hholds.cacheSize_eq,
    hhandle, hinverse, hk.data_eq hlen, fun str hstr => ⟨Nat.succ_pos _, ?_, ?_⟩⟩
  · rw [hsize_eq]
    exact List.idxOf_lt_length_of_mem (hk.tags str hstr)
  · apply (hinverse _ _).mp
    rw [hhandle, Doc.stringIndex, Nat.add_comm]
    exact mem_numbered (hk.tags str hstr)

/-- The state in which `writeBinaryTable` calls `writeValue`. -/
def WriteState.start (L : LuaState) : WriteState :=
  { L := (StringTable.create L).2, strTable := (StringTable.create L).1, stream := .empty }

/-- In every state that `writeValue` visits below `writeBinaryTable` the string table holds the
strings met so far and the output refers to them, and a string keeps its number.  On success the
pool is written with the strings of the tags, each once. -/
theorem writeValue_keeps_pool (hperm : env.sort.Permutes) {S : List LuaValue} {idx : Int}
    (hidx : ValidIndex S idx) (ha : Acyclic h₀ (valueAt S idx)) (T : Thread) (p fuel : Nat) :
    (∃ pss : List (List Piece),
      List.Forall₂ (fun ps s => s.strTable.size < 2 ^ 31 → HoldsPool ps s) pss
        (visits env fuel (absIndex S.length idx) (.start ⟨S, h₀, T, p⟩)) ∧
      pss.Pairwise (fun ps qs => ps <+: qs ∧ stored ps <+: stored qs) ∧
      ∀ ps ∈ pss, ps <+: (layout env h₀ fuel (valueAt S idx)).pieces) ∧
    ∀ s, writeValue env fuel (absIndex S.length idx) (.start ⟨S, h₀, T, p⟩) =
        .returns (true, s) → s.strTable.size < 2 ^ 31 →
      HoldsPool (layout env h₀ fuel (valueAt S idx)).pieces s ∧
      (s.strTable.write s.L .empty).2.data =
        leBytesInt stringPoolLengthSize (stored (layout env h₀ fuel (valueAt S idx)).pieces).length ++
          Doc.encodePool (stored (layout env h₀ fuel (valueAt S idx)).pieces) ∧
      ∀ str, str ∈ stored (layout env h₀ fuel (valueAt S idx)).pieces ↔
        .string str ∈ (layout env h₀ fuel (valueAt S idx)).pieces := by
  obtain ⟨hidx', hval⟩ := hidx.withStrings h₀
  have hclosed : Closed h₀ (valueAt (withStrings h₀ S) (absIndex S.length idx)) := by
    rw [hval]
    exact ha.closed
  have hstart : WriteState.start ⟨S, h₀, T, p⟩ =
      ⟨⟨withStrings h₀ S, h₀ ++ [.empty, .empty], T, max p (S.length + 2)⟩,
        { handle := S.length + 1, index2string := S.length + 2, size := 0, cacheSize := 0 },
        .empty⟩ := by
    rw [WriteState.start, create_mk]
  rw [hstart]
  constructor
  -- the states on the way: one list of pieces for each, growing along the walk
  · have hj := journey_visits hperm fuel _ _ T (max p (S.length + 2)) _ _ .empty
      (absIndex S.length idx) [] (stringsAt_create S) .start hidx' hclosed (le_max_right _ _)
    rw [hval, List.nil_append] at hj
    obtain ⟨pss, hall, hpair, hbound⟩ := hj.exists_pieces
    exact ⟨pss, hall.imp fun ps s hs => hs.holdsPool,
      hpair.imp fun hle => ⟨hle, prefix_stored hle⟩, fun ps hps => (hbound ps hps).2⟩
  -- the last state: what is written of the pool is what the table holds
  · intro s hs hsize
    have hw := @writes_writeValue env h₀ _ _ hperm fuel _ _ T (max p (S.length + 2)) _ _ .empty
      (absIndex S.length idx) (stringsAt_create S) hidx' hclosed (le_max_right _ _)
    rw [hs, hval] at hw
    obtain ⟨L, st, stream⟩ := s
    obtain ⟨hc, hstream, _, h', hL, hp, _⟩ := hw
    cases hL
    cases hstream
    have hk := @Kept.emit _ _ .empty .start _ hc
    rw [List.nil_append] at hk
    have hat := At.holdsPool (s := ⟨_, st, _⟩) ⟨_, hp, hk⟩ hsize
    have hholds := hk.holds (hat.size_eq ▸ hsize)
    refine ⟨hat, ?_, fun str => ?_⟩
    · have hpool := Doc.data_writePool hholds [] _ (BinaryWriter.empty.writeNumber
        stringPoolLengthSize (stored (layout env h₀ fuel (valueAt S idx)).pieces).length) rfl
      rw [List.length_nil, Nat.zero_add, BinaryWriter.data_writeNumber, BinaryWriter.data_empty,
        List.nil_append] at hpool
      rw [StringTable.write, hat.size_eq, writeLoop_eq hp _ _ _ _ _ (by
        have hlen : (withStrings h₀ S).length = S.length + 2 := rfl
        omega)]
      exact hpool
    · rw [(Doc.mem_pieces _ _).1, stored, mem_storedFrom]
      simp

/-- A table with one string as key and value. -/
def echoTable : LuaTable := LuaTable.empty.set (.string [97]) (.string [97])

theorem writeValue_keeps_pool_echo :
    ∃ s, writeValue .plain 2 1 (.start ⟨[.table 0], [echoTable], .fresh .nil, 1⟩) = .returns (true, s) ∧
      s.strTable.size = 1 ∧ HoldsPool (layout .plain [echoTable] 2 (.table 0)).pieces s := by
  -- the table has the one entry
  have hkey : ∀ e ∈ echoTable.entries, e = (.string [97], .string [97]) := fun e he =>
    List.mem_singleton.mp he
  have ha : Acyclic [echoTable] (valueAt [.table 0] 1) :=
    .table rfl (fun e he => hkey e he ▸ .scalar (by decide))
      fun e he => hkey e he ▸ .scalar (by decide)
  have hkeeps := (@writeValue_keeps_pool .plain [echoTable] insertionSort_permutes [.table 0] 1
    ⟨by decide, by decide, by decide⟩ ha (.fresh .nil) 1 2).2
  have hsize : (match writeValue .plain 2 1 (.start ⟨[.table 0], [echoTable], .fresh .nil, 1⟩) with
      | .returns (true, s) => s.strTable.size
      | _ => 0) = 1 := by decide +kernel
  cases hrun : writeValue .plain 2 1 (.start ⟨[.table 0], [echoTable], .fresh .nil, 1⟩) with
  | raises s => simp [hrun] at hsize
  | diverges => simp [hrun] at hsize
  | returns a =>
    obtain ⟨ok, s⟩ := a
    rw [hrun] at hsize
    cases ok with
    | false => cases hsize
    | true =>
      have hone : s.strTable.size = 1 := hsize
      exact ⟨s, rfl, hone, (hkeeps s hrun (by omega)).1⟩

end LuaBinaryTable
