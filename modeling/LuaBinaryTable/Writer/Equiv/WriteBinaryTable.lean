import LuaBinaryTable.Document.Equiv.Entries
import LuaBinaryTable.Writer.Equiv.WriteValue

/-!
# `writeBinaryTable` writes the file of the layout

`writeBinaryTable_eq`: on a closed value, `writeBinaryTable` returns the `file`
of the value's layout, or the null pointer where the layout breaks off.  The stack is as it was, and
the heap has only grown.
-/

namespace LuaBinaryTable

open LuaState

variable {env : Env} {h₀ : List LuaTable}

/-- `writeTable` writes the entries of `written`. -/
theorem writes_written {hr ir : Nat} {lay : LuaValue → Doc} {vw : ValueWriter}
    (hvw : WritesLayout env h₀ hr ir lay vw) {t : LuaTable} {ref : Nat} (ht : h₀[ref]? = some t)
    (hkey : ∀ e ∈ t.entries, Closed h₀ e.1) (hval : ∀ e ∈ t.entries, Closed h₀ e.2)
    (hperm : env.sort.Permutes) (hne : t.entries.length ≠ 0) {S : List LuaValue}
    {h : List LuaTable} (T : Thread) {p : Nat} {st : StringTable} {pool : Pool}
    (stream : BinaryWriter) {idx : Int} (hp : StringsAt h₀ hr ir st pool S h)
    (hidx : ValidIndex S idx) (hv : valueAt S idx = .table ref) (hle : S.length ≤ p) :
    Writes h₀ hr ir (writtenDoc env lay t).stops
      ((writtenDoc env lay t).writeSlots ⟨pool, stream⟩)
      ((writtenDoc env lay t).emit ⟨pool, stream⟩) st S h
      ((writtenDoc env lay t).threadAfter env ⟨pool, stream⟩ S.length p T) p
      (writeTable env vw idx ⟨⟨S, h, T, p⟩, st, stream⟩) := by
  rw [← layoutTable_eq_written lay hne]
  exact writes_writeTable hvw ht hkey hval hperm T stream hp hidx hv hle

/-! ### The pool -/

/-- The loop of `write` writes the strings of the pool. -/
theorem writeLoop_eq {hr ir : Nat} {st : StringTable} {pool : Pool} {S : List LuaValue}
    {h : List LuaTable} (hp : StringsAt h₀ hr ir st pool S h) (T : Thread) :
    ∀ (n i p : Nat) (stream : BinaryWriter), S.length ≤ p →
      st.writeLoop n i ⟨S, h, T, p⟩ stream =
        (⟨S, h, T, max p (S.length + min 1 n)⟩, Doc.writePool pool n i stream)
  | 0, i, p, stream, hle => by
    rw [StringTable.writeLoop, Doc.writePool, Nat.min_zero, Nat.add_zero, Nat.max_eq_left hle]
  | n + 1, i, p, stream, hle => by
    have hget : rawField h (slot S st.index2string) (integer i) =
        pool.index2string.get (integer i) := by
      rw [hp.index_slot, rawField, hp.index_table]
      rfl
    have hrec := writeLoop_eq hp T n (i + 1) (max p (S.length + 1))
    have hmax : max (max p (S.length + 1)) (S.length + min 1 n) =
        max p (S.length + min 1 (n + 1)) := by
      omega
    simp only [StringTable.writeLoop, Doc.writePool, rawgeti_mk _ _ _ _ hp.index_pos, hget,
      tolstring, index2adr_top, pop, List.drop_one, List.tail_cons]
    rw [← hmax]
    exact hrec _ (by omega)

/-- Where the pool grows, two slots were in use. -/
theorem size_store (pool : Pool) (str : Bytes) :
    (pool.store str).2.size = if pool.IsNew str then pool.size + 1 else pool.size := by
  unfold Pool.store
  split_ifs <;> rfl

theorem two_le_writeSlots {d : Doc} {e : EmitState} (h : (d.emit e).pool.size ≠ e.pool.size) :
    2 ≤ d.writeSlots e := by
  cases d with
  | string str =>
    rw [Doc.emit] at h
    rw [Doc.writeSlots]
    split_ifs at h ⊢ with hs hn
    · exact absurd rfl h
    · exact le_rfl
    · exact absurd (by rw [size_store, if_neg hn]) h
  | array size items => exact le_max_left _ _
  | table size items => exact le_trans (by decide) (le_max_left 5 _)
  | _ => exact absurd rfl h

/-! ### The whole file -/

theorem removeSlot_pair (extra : List LuaValue) (u v : LuaValue) (S : List LuaValue) :
    removeSlot (removeSlot (extra ++ u :: v :: S) (S.length + 2)) (S.length + 1) = extra ++ S := by
  rw [removeSlot_append (by simp), show S.length + 2 = (v :: S).length + 1 from rfl,
    removeSlot_top, removeSlot_append (by simp), removeSlot_top]

theorem destroy_mk {st : StringTable} {S : List LuaValue} (hh : st.handle = S.length + 1)
    (hi : st.index2string = S.length + 2) (extra : List LuaValue) (u v : LuaValue)
    (h : List LuaTable) (T : Thread) (p : Nat) :
    st.destroy ⟨extra ++ u :: v :: S, h, T, p⟩ = ⟨extra ++ S, h, T, p⟩ := by
  simp only [StringTable.destroy, remove, hh, hi]
  rw [absIndex_natCast (Nat.succ_pos _), absIndex_natCast (Nat.succ_pos _), removeSlot_pair]

/-- The stack with the two tables of a new string table on it. -/
def withStrings (h₀ : List LuaTable) (S : List LuaValue) : List LuaValue :=
  .table (h₀.length + 1) :: .table h₀.length :: S

theorem create_mk (S : List LuaValue) (T : Thread) (p : Nat) :
    StringTable.create ⟨S, h₀, T, p⟩ =
      ({ handle := S.length + 1, index2string := S.length + 2, size := 0, cacheSize := 0 },
        ⟨withStrings h₀ S, h₀ ++ [.empty, .empty], T, max p (S.length + 2)⟩) := by
  have hmax : max (max p (S.length + 1)) (S.length + 1 + 1) = max p (S.length + 2) := by omega
  simp only [StringTable.create, newtable_mk, gettop, List.length_append, List.length_cons, hmax,
    List.append_assoc, List.singleton_append]
  rfl

/-- A new string table is in place. -/
theorem stringsAt_create (S : List LuaValue) :
    StringsAt h₀ h₀.length (h₀.length + 1)
      { handle := S.length + 1, index2string := S.length + 2, size := 0, cacheSize := 0 }
      .empty (withStrings h₀ S) (h₀ ++ [.empty, .empty]) where
  source := fun i hi => List.getElem?_append_left hi
  handle_pos := Nat.succ_pos _
  handle_le := Nat.le_succ _
  handle_slot := (slot_of_le (Nat.le_refl _)).trans (slot_top _ S)
  handle_table := by simp [Pool.empty]
  index_pos := Nat.succ_pos _
  index_le := le_rfl
  index_slot := slot_top _ (_ :: S)
  index_table := by simp [Pool.empty]
  ne := by omega
  handle_fresh := le_rfl
  index_fresh := Nat.le_succ _
  size_eq := rfl
  cacheSize_eq := rfl

section

variable {S : List LuaValue} {idx : Int} (hidx : ValidIndex S idx)

include hidx

/-- The absolute index is valid above the string table, and names the same value. -/
theorem ValidIndex.withStrings (h₀ : List LuaTable) :
    ValidIndex (withStrings h₀ S) (absIndex S.length idx) ∧
      valueAt (LuaBinaryTable.withStrings h₀ S) (absIndex S.length idx) = valueAt S idx := by
  have hpos := hidx.pos
  have hle := hidx.le
  refine ⟨⟨by omega, by rwa [absIndex_natCast hpos], ?_⟩, ?_⟩
  · rw [absIndex_natCast hpos]
    simp only [LuaBinaryTable.withStrings, List.length_cons]
    omega
  · rw [valueAt, absIndex_natCast hpos, LuaBinaryTable.withStrings,
      slot_of_le (Nat.le_succ_of_le hle), slot_of_le hle, valueAt]

end

/-- What `writeBinaryTable` does once the body is written. -/
def finish (top : Nat) (a : Bool × WriteState) : Run LuaState (Option Bytes × LuaState) :=
  if a.1 then .returns (some (fileStream a.2).2.data, (fileStream a.2).1)
  else .returns (none, (a.2.strTable.destroy a.2.L).settop top)

/-- `writeBinaryTable` writes the body above a new string table and finishes. -/
theorem writeBinaryTable_bind {S : List LuaValue} {idx : Int} (hidx : ValidIndex S idx)
    (T : Thread) (p fuel : Nat) :
    writeBinaryTable env fuel ⟨S, h₀, T, p⟩ idx =
      (writeValue env fuel (absIndex S.length idx)
        ⟨⟨withStrings h₀ S, h₀ ++ [.empty, .empty], T, max p (S.length + 2)⟩,
          { handle := S.length + 1, index2string := S.length + 2, size := 0, cacheSize := 0 },
          .empty⟩ >>= finish S.length) := by
  have habs : (if idx < 0 then ((LuaState.mk S h₀ T p).gettop : Int) + idx + 1 else idx) =
      absIndex S.length idx := hidx.absolute
  simp only [writeBinaryTable, habs, create_mk]
  rfl

/-- The stream is that of the document. -/
theorem fileStream_eq {S : List LuaValue} {d : Doc} {st : StringTable} {h : List LuaTable}
    {T : Thread} {p : Nat}
    (hp : StringsAt h₀ h₀.length (h₀.length + 1) st (d.emit .start).pool (withStrings h₀ S) h)
    (hh : st.handle = S.length + 1) (hi : st.index2string = S.length + 2)
    (hle : S.length + 2 + d.writeSlots .start ≤ p) :
    fileStream ⟨⟨withStrings h₀ S, h, T, p⟩, st, (d.emit .start).stream⟩ =
      (⟨S, h, T, p⟩, d.stream) := by
  have hlen : (withStrings h₀ S).length = S.length + 2 := rfl
  -- with a string in the pool, writing it needs no slot more
  have hpeak : max p ((withStrings h₀ S).length + min 1 (d.emit .start).pool.size) = p := by
    rw [hlen]
    have h2 : (d.emit .start).pool.size ≠ 0 → 2 ≤ d.writeSlots .start := fun h =>
      two_le_writeSlots h
    omega
  have hdestroy : st.destroy ⟨withStrings h₀ S, h, T, p⟩ = ⟨S, h, T, p⟩ :=
    destroy_mk hh hi [] _ _ h T p
  have hloop := writeLoop_eq hp T (d.emit .start).pool.size 1 p
  rw [hpeak] at hloop
  simp only [fileStream, StringTable.write, hp.size_eq, hp.cacheSize_eq,
    hloop _ (show S.length + 2 ≤ p by omega), hdestroy, Doc.stream]

/-- The end of a successful run. -/
theorem finish_true {S : List LuaValue} {d : Doc} {st : StringTable} {h : List LuaTable}
    {T : Thread} {p : Nat}
    (hp : StringsAt h₀ h₀.length (h₀.length + 1) st (d.emit .start).pool (withStrings h₀ S) h)
    (hh : st.handle = S.length + 1) (hi : st.index2string = S.length + 2)
    (hle : S.length + 2 + d.writeSlots .start ≤ p) :
    finish S.length (true, ⟨⟨withStrings h₀ S, h, T, p⟩, st, (d.emit .start).stream⟩) =
      .returns (some d.file, ⟨S, h, T, p⟩) := by
  rw [finish, if_pos rfl, fileStream_eq hp hh hi hle]
  rfl

/-- The end of a failed run. -/
theorem finish_false {S : List LuaValue} {st : StringTable} {h : List LuaTable} {T : Thread}
    {p : Nat} {stream : BinaryWriter} (extra : List LuaValue) (hh : st.handle = S.length + 1)
    (hi : st.index2string = S.length + 2) (hle : S.length ≤ p) :
    finish S.length (false, ⟨⟨extra ++ withStrings h₀ S, h, T, p⟩, st, stream⟩) =
      .returns (none, ⟨S, h, T, p⟩) := by
  have hdestroy := destroy_mk hh hi extra (.table (h₀.length + 1)) (.table h₀.length) h T p
  have hsettop : (settop S.length ⟨extra ++ S, h, T, p⟩) = ⟨S, h, T, p⟩ := by
    simp [settop, gettop, hle]
  simp only [finish, Bool.false_eq_true, if_false, withStrings, hdestroy, hsettop]

/-- `writeBinaryTable` on a value of the heap, by how its layout breaks off. -/
theorem writeBinaryTable_eq (hperm : env.sort.Permutes) {S : List LuaValue} {idx : Int}
    (hidx : ValidIndex S idx) (ha : Closed h₀ (valueAt S idx)) (T : Thread) {p : Nat}
    (hle : S.length ≤ p) (fuel : Nat) :
    match (layout env h₀ fuel (valueAt S idx)).stops with
    | none => ∃ h', Keeps h₀.length (h₀.length + 1) h₀ h' ∧
        writeBinaryTable env fuel ⟨S, h₀, T, p⟩ idx =
          .returns (some (layout env h₀ fuel (valueAt S idx)).file, ⟨S, h',
            (layout env h₀ fuel (valueAt S idx)).threadWritten env S.length p T,
            max p (S.length + 2 + (layout env h₀ fuel (valueAt S idx)).writeSlots .start)⟩)
    | some .deep => writeBinaryTable env fuel ⟨S, h₀, T, p⟩ idx = .diverges
    | some _ => ∃ h', Keeps h₀.length (h₀.length + 1) h₀ h' ∧
        writeBinaryTable env fuel ⟨S, h₀, T, p⟩ idx =
          .returns (none, ⟨S, h',
            (layout env h₀ fuel (valueAt S idx)).threadWritten env S.length p T,
            max p (S.length + 2 + (layout env h₀ fuel (valueAt S idx)).writeSlots .start)⟩) := by
  obtain ⟨hidx', hval⟩ := hidx.withStrings h₀
  have hw := writes_writeValue hperm fuel (withStrings h₀ S) (h₀ ++ [.empty, .empty]) T
    (max p (S.length + 2)) _ .empty .empty (absIndex S.length idx) (stringsAt_create S) hidx'
    (by rw [hval]; exact ha) (le_max_right _ _)
  rw [hval, show (⟨.empty, .empty⟩ : EmitState) = .start from rfl] at hw
  rw [writeBinaryTable_bind hidx]
  generalize layout env h₀ fuel (valueAt S idx) = d at *
  generalize writeValue env fuel (absIndex S.length idx) _ = x at *
  have hthread : d.threadAfter env .start (withStrings h₀ S).length (max p (S.length + 2)) T =
      d.threadWritten env S.length p T := rfl
  rw [hthread] at hw
  -- the two tables of the string table come first, behind those of the caller
  have hfirst : Keeps h₀.length (h₀.length + 1) h₀ (h₀ ++ [.empty, .empty]) := Keeps.append h₀ _
  have hpeak : max (max p (S.length + 2)) ((withStrings h₀ S).length + d.writeSlots .start) =
      max p (S.length + 2 + d.writeSlots .start) := by
    simp only [withStrings, List.length_cons]
    omega
  match x, hw with
  | .returns (true, s), ⟨hs, hstream, hsame, h', hL, hp, hk⟩ =>
    obtain ⟨L, st, stream⟩ := s
    cases hL
    cases hstream
    rw [hs]
    refine ⟨h', hfirst.trans hk, ?_⟩
    rw [Run.returns_bind, hpeak]
    exact finish_true hp hsame.1 hsame.2 (le_max_right _ _)
  | .returns (false, s), ⟨⟨w, hw, hne⟩, hsame, extra, h', hL, hk⟩ =>
    obtain ⟨L, st, stream⟩ := s
    cases hL
    -- whatever has been left above the string table goes with `lua_settop`
    have hfail : (Run.returns (false, ⟨⟨extra ++ withStrings h₀ S, h',
        d.threadWritten env S.length p T,
        max (max p (S.length + 2)) ((withStrings h₀ S).length + d.writeSlots .start)⟩, st,
          stream⟩) >>= finish S.length) =
        .returns (none, ⟨S, h', d.threadWritten env S.length p T,
          max p (S.length + 2 + d.writeSlots .start)⟩) := by
      rw [Run.returns_bind, hpeak]
      exact finish_false extra hsame.1 hsame.2 (by omega)
    have hkeep := hfirst.trans hk
    rw [hw]
    cases w with
    | deep => exact absurd rfl hne
    | _ => exact ⟨h', hkeep, hfail⟩
  | .diverges, hs =>
    rw [show d.stops = _ from hs]
    rfl

end LuaBinaryTable
