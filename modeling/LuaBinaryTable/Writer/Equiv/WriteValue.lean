import LuaBinaryTable.Document.Equiv.Layout
import LuaBinaryTable.Lua.Reachable
import LuaBinaryTable.Writer.Equiv.Keys
import LuaBinaryTable.Writer.Equiv.StringTable

/-!
# `writeValue` emits the layout

`writes_writeValue`: from a state with the string table in place, `writeValue` does to the state and
the output what `emit` does for the value's `layout`.  It succeeds with the stack as it was, or
fails with slots left above it, or runs out of fuel; it never raises an error.
-/

namespace LuaBinaryTable

open LuaState

/-- The string table keeps its places on the stack. -/
def SamePlaces (st st' : StringTable) : Prop :=
  st'.handle = st.handle ∧ st'.index2string = st.index2string

theorem SamePlaces.trans {st st' st'' : StringTable} (h : SamePlaces st st')
    (h' : SamePlaces st' st'') : SamePlaces st st'' :=
  ⟨h'.1.trans h.1, h'.2.trans h.2⟩

/-- A run of the encoder from a state with stack `S`, heap `h` and peak `p` that breaks off at
`stops`, uses `slots` slots above `S`, leaves the thread `T` and, if it does not break off, emits
up to `e`. -/
def Writes (h₀ : List LuaTable) (hr ir : Nat) (stops : Option Stop) (slots : Nat) (e : EmitState)
    (st : StringTable) (S : List LuaValue) (h : List LuaTable) (T : Thread) (p : Nat) :
    Run LuaState (Bool × WriteState) → Prop
  | .returns (true, s) => stops = none ∧ s.stream = e.stream ∧ SamePlaces st s.strTable ∧
      ∃ h', s.L = ⟨S, h', T, max p (S.length + slots)⟩ ∧
        StringsAt h₀ hr ir s.strTable e.pool S h' ∧ Keeps hr ir h h'
  | .returns (false, s) => (∃ w, stops = some w ∧ w ≠ .deep) ∧ SamePlaces st s.strTable ∧
      ∃ extra h', s.L = ⟨extra ++ S, h', T, max p (S.length + slots)⟩ ∧ Keeps hr ir h h'
  | .raises _ => False
  | .diverges => stops = some .deep

variable {env : Env} {h₀ : List LuaTable} {hr ir : Nat}

/-- An item that breaks off ends the items. -/
theorem stopsItems_of_stops {d : Doc} (hd : d.stops ≠ none) :
    (∀ ds, Doc.stopsItems (d :: ds) = d.stops) ∧
      (∀ {ds e}, Doc.writeSlotsItems (d :: ds) e = d.writeSlots e) ∧
        ∀ {ds e height p T}, Doc.threadAfterItems env (d :: ds) e height p T =
          d.threadAfter env e height p T := by
  have hnc : ¬ d.Complete := hd
  obtain ⟨w, hw⟩ := Option.ne_none_iff_exists'.mp hd
  refine ⟨fun ds => by rw [Doc.stopsItems, hw]; rfl, fun {ds e} => ?_, fun {ds e height p T} => ?_⟩
  · rw [Doc.writeSlotsItems, if_neg hnc, Nat.max_zero]
  · rw [Doc.threadAfterItems, if_neg hnc]

/-- A writer that emits the layout `lay` of every closed value it is given. -/
def WritesLayout (env : Env) (h₀ : List LuaTable) (hr ir : Nat) (lay : LuaValue → Doc)
    (vw : ValueWriter) : Prop :=
  ∀ S h T p st pool stream idx, StringsAt h₀ hr ir st pool S h → ValidIndex S idx →
    Closed h₀ (valueAt S idx) → S.length ≤ p →
    Writes h₀ hr ir (lay (valueAt S idx)).stops
      ((lay (valueAt S idx)).writeSlots ⟨pool, stream⟩) ((lay (valueAt S idx)).emit ⟨pool, stream⟩)
      st S h ((lay (valueAt S idx)).threadAfter env ⟨pool, stream⟩ S.length p T) p
      (vw idx ⟨⟨S, h, T, p⟩, st, stream⟩)

namespace Writes

variable {st st' : StringTable} {S : List LuaValue} {h h' : List LuaTable} {T T' : Thread}
  {p : Nat} {stops : Option Stop} {m : Nat} {e : EmitState}
  {x : Run LuaState (Bool × WriteState)}

/-- What went before is added. -/
theorem of_later {k : Nat} (hk : Keeps hr ir h h') (hs : SamePlaces st st')
    (hx : Writes h₀ hr ir stops m e st' S h' T (max p (S.length + k)) x) :
    Writes h₀ hr ir stops (max k m) e st S h T p x := by
  have hmax : max (max p (S.length + k)) (S.length + m) = max p (S.length + max k m) := by omega
  match x, hx with
  | .returns (true, s), ⟨h1, h2, h3, h'', hL, hp, hk'⟩ =>
    exact ⟨h1, h2, hs.trans h3, h'', by rw [hL, hmax], hp, hk.trans hk'⟩
  | .returns (false, s), ⟨h1, h3, extra, h'', hL, hk'⟩ =>
    exact ⟨h1, hs.trans h3, extra, h'', by rw [hL, hmax], hk.trans hk'⟩
  | .diverges, hx => exact hx

/-- The item written first may end the run. -/
theorem of_item {d : Doc} {v : LuaValue} {e₀ : EmitState}
    {f : Bool × WriteState → Run LuaState (Bool × WriteState)}
    (hx : Writes h₀ hr ir d.stops (d.writeSlots e₀) (d.emit e₀) st (v :: S) h T p x)
    (hfail : ∀ s, f (false, s) = .returns (false, s))
    (hstop : d.stops ≠ none → stops = d.stops ∧ m = 1 + d.writeSlots e₀ ∧ T' = T)
    (hok : ∀ s, Writes h₀ hr ir d.stops (d.writeSlots e₀) (d.emit e₀) st (v :: S) h T p
        (.returns (true, s)) → Writes h₀ hr ir stops m e st S h T' p (f (true, s))) :
    Writes h₀ hr ir stops m e st S h T' p (x >>= f) := by
  match x, hx with
  | .returns (true, s), hx => exact hok s hx
  | .returns (false, s), ⟨⟨w, hw, hne⟩, hs, extra, h', hL, hk⟩ =>
    obtain ⟨rfl, rfl, rfl⟩ := hstop (by rw [hw]; simp)
    rw [Run.returns_bind, hfail]
    refine ⟨⟨w, hw, hne⟩, hs, extra ++ [v], h', ?_, hk⟩
    rw [hL, List.append_assoc, List.singleton_append, List.length_cons, Nat.add_assoc]
  | .diverges, hx =>
    obtain ⟨rfl, _⟩ := hstop (by rw [show d.stops = _ from hx]; simp)
    exact hx

/-- The first of some items, in the slot above `S`, and the items behind it. -/
theorem of_items {d : Doc} {ds : List Doc} {v : LuaValue} {e₀ : EmitState}
    {f : Bool × WriteState → Run LuaState (Bool × WriteState)}
    (hx : Writes h₀ hr ir d.stops (d.writeSlots e₀) (d.emit e₀) st (v :: S) h
      (d.threadAfter env e₀ (S.length + 1) p T) p x)
    (hfail : ∀ s, f (false, s) = .returns (false, s))
    (hok : ∀ (st' : StringTable) (h' : List LuaTable) (T' : Thread) (q : Nat),
      q = max p (S.length + 1 + d.writeSlots e₀) → SamePlaces st st' →
      StringsAt h₀ hr ir st' (d.emit e₀).pool (v :: S) h' → Keeps hr ir h h' →
      Writes h₀ hr ir (Doc.stopsItems ds) (1 + Doc.writeSlotsItems ds (d.emit e₀))
        (Doc.emitItems ds (d.emit e₀)) st' S h'
        (Doc.threadAfterItems env ds (d.emit e₀) (S.length + 1) q T') q
        (f (true, ⟨⟨v :: S, h', T', q⟩, st', (d.emit e₀).stream⟩))) :
    Writes h₀ hr ir (Doc.stopsItems (d :: ds)) (1 + Doc.writeSlotsItems (d :: ds) e₀)
      (Doc.emitItems (d :: ds) e₀) st S h
      (Doc.threadAfterItems env (d :: ds) e₀ (S.length + 1) p T) p (x >>= f) := by
  refine of_item hx hfail ?_ ?_
  · intro hd
    obtain ⟨h1, h2, h3⟩ := @stopsItems_of_stops env d hd
    exact ⟨h1 _, by rw [h2], h3⟩
  · rintro ⟨L, st', stream'⟩ ⟨hd, rfl, hsame, h', rfl, hp, hk⟩
    have hc : d.Complete := hd
    rw [Doc.stopsItems, hd, Option.none_or, Doc.writeSlotsItems, if_pos hc, Doc.emitItems,
      if_pos hc, Doc.threadAfterItems, if_pos hc, ← Nat.add_max_add_left]
    apply of_later hk hsame
    rw [List.length_cons, ← Nat.add_assoc S.length 1]
    exact hok st' h' _ _ rfl hsame hp hk

/-- A run above one more slot, which is popped where the run succeeds. -/
theorem pop {v : LuaValue} (hh : st.handle ≤ S.length) (hi : st.index2string ≤ S.length)
    (hk : Keeps hr ir h h') (hx : Writes h₀ hr ir stops m e st (v :: S) h' T p x) :
    Writes h₀ hr ir stops (1 + m) e st S h T p (x >>= fun a =>
      if a.1 then .returns (true, { a.2 with L := a.2.L.pop 1 }) else .returns (false, a.2)) := by
  match x, hx with
  | .returns (true, s), ⟨h1, h2, h3, h'', hL, hp, hk'⟩ =>
    refine ⟨h1, h2, h3, h'', ?_, hp.of_push (h3.1 ▸ hh) (h3.2 ▸ hi), hk.trans hk'⟩
    simp only [hL, LuaState.pop, List.drop_one, List.tail_cons, List.length_cons, Nat.add_assoc]
  | .returns (false, s), ⟨h1, h3, extra, h'', hL, hk'⟩ =>
    refine ⟨h1, h3, extra ++ [v], h'', ?_, hk.trans hk'⟩
    simp only [hL, List.append_assoc, List.singleton_append, List.length_cons, Nat.add_assoc]
  | .diverges, hx => exact hx

end Writes

/-! ### Loops -/

section

variable {lay : LuaValue → Doc} {vw : ValueWriter} (hvw : WritesLayout env h₀ hr ir lay vw)
  {t : LuaTable} {ref : Nat} (ht : h₀[ref]? = some t)
  (hval : ∀ e ∈ t.entries, Closed h₀ e.2)

include hvw ht hval

/-- The loop over the elements of an array. -/
theorem writes_writeArrayLoop {i : Nat} {S : List LuaValue} (hi : 0 < i)
    (hle : i ≤ S.length) (hs : slot S i = .table ref) :
    ∀ (n j : Nat) (h : List LuaTable) (T : Thread) (p : Nat) (st : StringTable) (pool : Pool)
      (stream : BinaryWriter), StringsAt h₀ hr ir st pool S h → S.length + 1 ≤ p →
      Writes h₀ hr ir (Doc.stopsItems ((t.elements j n).map lay))
        (1 + Doc.writeSlotsItems ((t.elements j n).map lay) ⟨pool, stream⟩)
        (Doc.emitItems ((t.elements j n).map lay) ⟨pool, stream⟩) st S h
        (Doc.threadAfterItems env ((t.elements j n).map lay) ⟨pool, stream⟩ (S.length + 1) p T) p
        (writeArrayLoop vw i n j ⟨⟨S, h, T, p⟩, st, stream⟩)
  | 0, j, h, T, p, st, pool, stream, hp, hp' => by
    refine ⟨rfl, rfl, ⟨rfl, rfl⟩, h, ?_, hp, Keeps.refl h⟩
    simp only [LuaTable.elements, List.map_nil, Doc.writeSlotsItems, Doc.threadAfterItems]
    rw [Nat.max_eq_left (by omega)]
  | n + 1, j, h, T, p, st, pool, stream, hp, hp' => by
    have hget : rawField h (slot S i) (integer j) = t.get (integer j) := by
      rw [hs, rawField, hp.table_of_source ht]
      rfl
    -- the element is written on top of the stack and popped, and the rest is the induction
    have hv := hvw (t.get (integer j) :: S) h T p st pool stream (-1) (hp.push _)
      (validIndex_top _ S) (by rw [valueAt_top]; exact closed_get hval _) hp'
    rw [valueAt_top] at hv
    rw [writeArrayLoop, rawgeti_mk _ _ _ _ hi, hget, Nat.max_eq_left (by omega),
      LuaTable.elements, List.map_cons]
    refine Writes.of_items hv (fun _ => rfl) fun st' h' T' q hq hsame hp'' _ => ?_
    simp only [if_true, pop, List.drop_one, List.tail_cons]
    exact writes_writeArrayLoop hi hle hs n (j + 1) h' T' q st' _ _
      (hp''.of_push (hsame.1 ▸ hp.handle_le) (hsame.2 ▸ hp.index_le)) (by omega)

/-- The loop over the entries of a hash table. -/
theorem writes_writeHashLoop {i arr : Nat} {S : List LuaValue} (hi : 0 < i)
    (hle : i ≤ S.length) (hs : slot S i = .table ref) {a : LuaTable} (hhr : arr ≠ hr)
    (hir : arr ≠ ir) :
    ∀ (pre ks : List LuaValue) (h : List LuaTable) (T : Thread) (p : Nat) (st : StringTable)
      (pool : Pool) (stream : BinaryWriter), a.entries = arrayEntries 1 (pre ++ ks) →
      (∀ k ∈ ks, Closed h₀ k) → h[arr]? = some a →
      StringsAt h₀ hr ir st pool (.table arr :: S) h → S.length + 2 ≤ p →
      Writes h₀ hr ir (Doc.stopsItems ((t.alternate ks).map lay))
        (1 + Doc.writeSlotsItems ((t.alternate ks).map lay) ⟨pool, stream⟩)
        (Doc.emitItems ((t.alternate ks).map lay) ⟨pool, stream⟩) st (.table arr :: S) h
        (Doc.threadAfterItems env ((t.alternate ks).map lay) ⟨pool, stream⟩ (S.length + 2) p T) p
        (writeHashLoop vw i ks.length (pre.length + 1) ⟨⟨.table arr :: S, h, T, p⟩, st, stream⟩)
  | pre, [], h, T, p, st, pool, stream, _, _, _, hp, hp' => by
    refine ⟨rfl, rfl, ⟨rfl, rfl⟩, h, ?_, hp, Keeps.refl h⟩
    simp only [LuaTable.alternate, List.flatMap_nil, List.map_nil, Doc.writeSlotsItems,
      Doc.threadAfterItems, List.length_cons]
    rw [Nat.max_eq_left (by omega)]
  | pre, k :: ks, h, T, p, st, pool, stream, ha, hkeys, harr, hp, hp' => by
    have hv := hvw (k :: .table arr :: S) h T p st pool stream (-1) (hp.push _)
      (validIndex_top _ _) (by rw [valueAt_top]; exact hkeys k (List.mem_cons_self ..)) hp'
    rw [valueAt_top] at hv
    have hitems : (t.alternate (k :: ks)).map lay =
        lay k :: lay (t.get k) :: (t.alternate ks).map lay := rfl
    rw [List.length_cons, writeHashLoop, rawgeti, index2adr_top, rawField_key harr ha, push_mk,
      Nat.max_eq_left (show (LuaValue.table arr :: S).length + 1 ≤ p from hp'), hitems]
    -- the key, which the value then replaces on the stack
    refine Writes.of_items hv (fun _ => rfl) fun st' h' T' q hq hsame hp'' hk => ?_
    have hpk := hp''.of_push (hsame.1 ▸ hp.handle_le) (hsame.2 ▸ hp.index_le)
    have hget : rawField h' (slot (.table arr :: S) i) k = t.get k := by
      rw [slot_of_le hle, hs, rawField, hpk.table_of_source ht]
      rfl
    have hlen : (LuaValue.table arr :: S).length + 1 ≤ q := by
      rw [hq, List.length_cons]
      omega
    have hw := hvw (t.get k :: .table arr :: S) h' T' q st' ((lay k).emit ⟨pool, stream⟩).pool
      ((lay k).emit ⟨pool, stream⟩).stream (-1) (hpk.push _) (validIndex_top _ _)
      (by rw [valueAt_top]; exact closed_get hval k) hlen
    rw [valueAt_top] at hw
    simp only [if_true]
    rw [rawget_mk (.table arr :: S) _ _ _ hi (Nat.le_succ_of_le hle), hget]
    refine Writes.of_items hw (fun _ => rfl) fun st'' h'' T'' q' hq' hsame' hp''' hk' => ?_
    simp only [if_true, pop, List.drop_one, List.tail_cons]
    rw [show pre.length + 1 = (pre ++ [k]).length by simp]
    -- the array of keys is none of the tables that storing a string changes
    have harr' : h''[arr]? = some a := by
      have hlt := (List.getElem?_eq_some_iff.mp harr).1
      rw [(hk.trans hk').old arr hlt hhr hir, harr]
    apply writes_writeHashLoop hi hle hs hhr hir (pre ++ [k]) ks h'' T'' q' st''
    · rw [ha, List.append_assoc, List.singleton_append]
    · exact fun k' hmem => hkeys k' (List.mem_cons_of_mem _ hmem)
    · exact harr'
    · exact hp'''.of_push (hsame'.1 ▸ hpk.handle_le) (hsame'.2 ▸ hpk.index_le)
    · rw [hq']
      rw [List.length_cons] at hlen
      omega

end

/-! ### Tables -/

/-- A valid index and its absolute form name the same slot. -/
theorem ValidIndex.absolute {S : List LuaValue} {idx : Int} (hidx : ValidIndex S idx) :
    (if idx < 0 then (S.length : Int) + idx + 1 else idx) = absIndex S.length idx := by
  have h0 := hidx.ne_zero
  have hpos := hidx.pos
  unfold absIndex at *
  split_ifs at * <;> omega

/-- `lua_objlen` of the table at a valid index. -/
theorem ValidIndex.objlen_table {S : List LuaValue} {idx : Int} (hidx : ValidIndex S idx)
    {h : List LuaTable} {ref : Nat} {t : LuaTable} (hv : valueAt S idx = .table ref)
    (ht : h[ref]? = some t) (T : Thread) (p : Nat) :
    objlen ⟨S, h, T, p⟩ (absIndex S.length idx) = t.border := by
  rw [objlen, index2adr_mk _ _ _ _ hidx.pos, show slot S (absIndex S.length idx) = _ from hv]
  simp only [ht, Option.elim_some]

section

variable {lay : LuaValue → Doc} {vw : ValueWriter} (hvw : WritesLayout env h₀ hr ir lay vw)
  {t : LuaTable} {ref : Nat} (ht : h₀[ref]? = some t)
  (hkey : ∀ e ∈ t.entries, Closed h₀ e.1) (hval : ∀ e ∈ t.entries, Closed h₀ e.2)
  (hperm : env.sort.Permutes)

include hvw ht hkey hval hperm

/-- `writeTable` writes the layout of the table, whatever state it starts from, where the writer
that it calls does so for its values. -/
theorem writes_writeTable {S : List LuaValue} {h : List LuaTable} (T : Thread) {p : Nat}
    {st : StringTable} {pool : Pool} (stream : BinaryWriter) {idx : Int}
    (hp : StringsAt h₀ hr ir st pool S h) (hidx : ValidIndex S idx)
    (hv : valueAt S idx = .table ref) (hle : S.length ≤ p) :
    Writes h₀ hr ir (layoutTable env lay t).stops
      ((layoutTable env lay t).writeSlots ⟨pool, stream⟩)
      ((layoutTable env lay t).emit ⟨pool, stream⟩) st S h
      ((layoutTable env lay t).threadAfter env ⟨pool, stream⟩ S.length p T) p
      (writeTable env vw idx ⟨⟨S, h, T, p⟩, st, stream⟩) := by
  have hcount := countTableLength_eq (T := T) hidx.pos hidx.le hv (hp.table_of_source ht) p
  have habs : (if idx < 0 then ((LuaState.mk S h T p).gettop : Int) + idx + 1 else idx) =
      absIndex S.length idx := hidx.absolute
  have hobj := hidx.objlen_table hv (hp.table_of_source ht) T
  simp only [writeTable, habs, hcount, hobj, layoutTable]
  by_cases hzero : t.entries.length = 0
  · simp only [hzero, if_true]
    exact ⟨rfl, rfl, ⟨rfl, rfl⟩, h, rfl, hp, Keeps.refl h⟩
  have hpeak : max p (S.length + 1 + min 1 t.entries.length) = max p (S.length + 2) := by omega
  rw [hpeak, if_neg hzero, if_neg hzero]
  by_cases harray : t.entries.length = t.border
  · rw [if_pos harray, if_pos harray]
    exact Writes.of_later (Keeps.refl h) ⟨rfl, rfl⟩
      (writes_writeArrayLoop hvw ht hval hidx.pos hidx.le hv t.entries.length 1 h T _ st pool
        (writeLength stream .tArray0 t.entries.length) hp (by omega))
  · rw [if_neg harray, if_neg harray, getSortedTableKeys_eq env T hidx.pos hidx.le hv
      (hp.table_of_source ht)]
    have hmax : max (max p (S.length + 2)) (S.length + 5) = max p (S.length + 5) := by omega
    have hsorted := @Thread.afterSort_max env T _ _ (show S.length + 2 ≤ S.length + 5 by omega) p
    cases hsort : (env.sort t.keys).run (sortComp env) with
    | error ks =>
      -- the sort raised: the array and the library table stay on the stack
      have hnone : t.sortedKeys env = none := by rw [LuaTable.sortedKeys, hsort]
      simp only [hnone, hmax, hsorted]
      refine ⟨⟨.unsortable, rfl, by decide⟩, ⟨rfl, rfl⟩, [T.tableLib, .table h.length], _, rfl,
        Keeps.append h _⟩
    | ok ks =>
      have hsome : t.sortedKeys env = some ks := by rw [LuaTable.sortedKeys, hsort]
      have hks := sortedKeys_perm hperm hsome
      have hlen : ks.length = t.entries.length := by
        rw [hks.length_eq, LuaTable.keys, List.length_map]
      have hmem : ∀ k ∈ ks, ∃ e ∈ t.entries, e.1 = k := fun k hk =>
        List.mem_map.mp (hks.subset hk)
      have hhr := (List.getElem?_eq_some_iff.mp hp.handle_table).1
      have hir := (List.getElem?_eq_some_iff.mp hp.index_table).1
      have hloop := writes_writeHashLoop hvw ht hval hidx.pos hidx.le hv hhr.ne' hir.ne' [] ks
        (h ++ [setContents (keyArray t.keys) 1 ks]) (T.afterSort env (S.length + 5) p)
        (max p (S.length + 5)) st pool
        (writeLength stream .tTable0 t.entries.length) (entries_sorted hks)
        (fun k hk => by obtain ⟨e, he, rfl⟩ := hmem k hk; exact hkey e he) (by simp)
        ((hp.append _).push _) (by omega)
      -- the array of keys is popped behind the loop
      have hpop := Writes.of_later (k := 5) (Keeps.refl h) ⟨rfl, rfl⟩
        (hloop.pop hp.handle_le hp.index_le (Keeps.append h _))
      rw [← Nat.add_assoc] at hpop
      simp only [hsome, hmax, hsorted]
      rw [← hlen]
      rw [← hlen] at hpop
      exact hpop

end

/-! ### Values -/

/-- `writeValue` emits the layout of the value at its index. -/
theorem writes_writeValue (hperm : env.sort.Permutes) :
    ∀ fuel, WritesLayout env h₀ hr ir (layout env h₀ fuel) (writeValue env fuel)
  | 0 => fun _ _ _ _ _ _ _ _ _ _ _ _ => rfl
  | fuel + 1 => by
    intro S h T p st pool stream idx hp hidx ha hle
    have hadr : index2adr ⟨S, h, T, p⟩ idx = valueAt S idx := rfl
    -- a value without items needs no slot and leaves the state as it was
    have hscalar : ∀ (d : Doc) (stream' : BinaryWriter), d.stops = none →
        d.writeSlots ⟨pool, stream⟩ = 0 → d.emit ⟨pool, stream⟩ = ⟨pool, stream'⟩ →
        d.threadAfter env ⟨pool, stream⟩ S.length p T = T →
        Writes h₀ hr ir d.stops (d.writeSlots ⟨pool, stream⟩) (d.emit ⟨pool, stream⟩) st S h
          (d.threadAfter env ⟨pool, stream⟩ S.length p T) p
          (.returns (true, ⟨⟨S, h, T, p⟩, st, stream'⟩)) := by
      intro d stream' hs hw he hT
      rw [hs, hw, he, hT]
      refine ⟨rfl, rfl, ⟨rfl, rfl⟩, h, ?_, hp, Keeps.refl h⟩
      rw [Nat.add_zero, Nat.max_eq_left hle]
    have hunsupported : Writes h₀ hr ir (some .unsupported) 0 ⟨pool, stream⟩ st S h T p
        (.returns (false, ⟨⟨S, h, T, p⟩, st, stream⟩)) := by
      refine ⟨⟨.unsupported, rfl, by decide⟩, ⟨rfl, rfl⟩, [], h, ?_, Keeps.refl h⟩
      rw [Nat.add_zero, Nat.max_eq_left hle, List.nil_append]
    rw [writeValue, hadr]
    cases hv : valueAt S idx with
    | nil => exact hscalar .nil _ rfl rfl rfl rfl
    | boolean b => exact hscalar (.boolean b) _ rfl rfl rfl rfl
    | number v =>
      simp only [layout]
      split_ifs with hround
      · exact hscalar (.integer _) _ rfl rfl rfl rfl
      · exact hscalar (.double v) _ rfl rfl rfl rfl
    | string str =>
      simp only [layout]
      by_cases hempty : str.length = 0
      · simp only [hempty, if_true]
        exact hscalar (.string str) _ rfl (if_pos hempty) (if_pos hempty) rfl
      · obtain ⟨st', h', hstore, hp', hk, hsame⟩ := storeString_eq hp hv T p
        simp only [hempty, if_false, hstore, Run.returns_bind, Run.pure_eq, Doc.writeSlots,
          Doc.emit]
        exact ⟨rfl, rfl, hsame, h', rfl, hp', hk⟩
    | table ref =>
      rw [hv] at ha
      obtain ⟨t, ht, hkey, hval⟩ := ha.exists_table
      simp only [layout, ht]
      exact writes_writeTable (writes_writeValue hperm fuel) ht hkey hval hperm T stream hp hidx hv
        hle
    | lightuserdata _ => exact hunsupported
    | function _ => exact hunsupported
    | userdata _ => exact hunsupported
    | thread _ => exact hunsupported

end LuaBinaryTable
