import LuaBinaryTable.Document.Emit
import LuaBinaryTable.Document.Equiv.Materialise

/-!
# The string table on the state

`StringsAt` places a `Pool` in the Lua state: its two tables in the heap, past the tables that were
there when writing began, and references to them on the stack.  `storeString_eq` says that
`storeString` does what `Pool.store` does.
-/

namespace LuaBinaryTable

open LuaState

/-- The heap grows from `h` to `h'`, and the tables of `h` stay but for two. -/
structure Keeps (hr ir : Nat) (h h' : List LuaTable) : Prop where
  length_le : h.length ≤ h'.length
  old : ∀ i, i < h.length → i ≠ hr → i ≠ ir → h'[i]? = h[i]?

namespace Keeps

variable {hr ir : Nat} {h h' h'' : List LuaTable}

theorem refl (h : List LuaTable) : Keeps hr ir h h := ⟨le_rfl, fun _ _ _ _ => rfl⟩

theorem trans (h1 : Keeps hr ir h h') (h2 : Keeps hr ir h' h'') : Keeps hr ir h h'' :=
  ⟨h1.length_le.trans h2.length_le, fun i hi hn hn' =>
    (h2.old i (hi.trans_le h1.length_le) hn hn').trans (h1.old i hi hn hn')⟩

theorem append (h ts : List LuaTable) : Keeps hr ir h (h ++ ts) :=
  ⟨by simp, fun _ hi _ _ => List.getElem?_append_left hi⟩

theorem modify_left (h : List LuaTable) (f : LuaTable → LuaTable) :
    Keeps hr ir h (h.modify hr f) :=
  ⟨by simp, fun _ _ hn _ => List.getElem?_modify_ne f h (Ne.symm hn)⟩

theorem modify_right (h : List LuaTable) (f : LuaTable → LuaTable) :
    Keeps hr ir h (h.modify ir f) :=
  ⟨by simp, fun _ _ _ hn => List.getElem?_modify_ne f h (Ne.symm hn)⟩

end Keeps

/-- The pool lies in the heap `h`, at `hr` and `ir`, and on the stack `S` where `st` says; the heap
`h₀` from which is written is still there. -/
structure StringsAt (h₀ : List LuaTable) (hr ir : Nat) (st : StringTable) (pool : Pool)
    (S : List LuaValue) (h : List LuaTable) : Prop where
  source : ∀ i, i < h₀.length → h[i]? = h₀[i]?
  handle_pos : 0 < st.handle
  handle_le : st.handle ≤ S.length
  handle_slot : slot S st.handle = .table hr
  handle_table : h[hr]? = some pool.handle
  index_pos : 0 < st.index2string
  index_le : st.index2string ≤ S.length
  index_slot : slot S st.index2string = .table ir
  index_table : h[ir]? = some pool.index2string
  ne : hr ≠ ir
  handle_fresh : h₀.length ≤ hr
  index_fresh : h₀.length ≤ ir
  size_eq : st.size = pool.size
  cacheSize_eq : st.cacheSize = pool.cacheSize

namespace StringsAt

variable {h₀ : List LuaTable} {hr ir : Nat} {st : StringTable} {pool : Pool} {S : List LuaValue}
  {h : List LuaTable}

/-- What lies on the stack above does not matter. -/
theorem push (hp : StringsAt h₀ hr ir st pool S h) (v : LuaValue) :
    StringsAt h₀ hr ir st pool (v :: S) h :=
  { hp with
    handle_le := Nat.le_succ_of_le hp.handle_le
    handle_slot := by rw [slot_of_le hp.handle_le]; exact hp.handle_slot
    index_le := Nat.le_succ_of_le hp.index_le
    index_slot := by rw [slot_of_le hp.index_le]; exact hp.index_slot }

/-- A slot on the top may be dropped where the pool lies below it. -/
theorem of_push {v : LuaValue} (hp : StringsAt h₀ hr ir st pool (v :: S) h)
    (hh : st.handle ≤ S.length) (hi : st.index2string ≤ S.length) :
    StringsAt h₀ hr ir st pool S h :=
  { hp with
    handle_le := hh
    handle_slot := by rw [← slot_of_le hh]; exact hp.handle_slot
    index_le := hi
    index_slot := by rw [← slot_of_le hi]; exact hp.index_slot }

theorem append (hp : StringsAt h₀ hr ir st pool S h) (ts : List LuaTable) :
    StringsAt h₀ hr ir st pool S (h ++ ts) := by
  have hl : ∀ {i : Nat} {t : LuaTable}, h[i]? = some t → (h ++ ts)[i]? = some t := by
    intro i t ht
    rw [List.getElem?_append_left (List.getElem?_eq_some_iff.mp ht).1, ht]
  have hlen := (List.getElem?_eq_some_iff.mp hp.handle_table).1
  have hfresh := hp.handle_fresh
  exact { hp with
    source := fun i hi => by
      rw [List.getElem?_append_left (by omega)]; exact hp.source i hi
    handle_table := hl hp.handle_table
    index_table := hl hp.index_table }

/-- The table of a reference into the source. -/
theorem table_of_source (hp : StringsAt h₀ hr ir st pool S h) {ref : Nat} {t : LuaTable}
    (ht : h₀[ref]? = some t) : h[ref]? = some t := by
  rw [hp.source ref (List.getElem?_eq_some_iff.mp ht).1, ht]

end StringsAt

/-- A stack index that has a slot. -/
structure ValidIndex (S : List LuaValue) (idx : Int) : Prop where
  ne_zero : idx ≠ 0
  pos : 0 < absIndex S.length idx
  le : absIndex S.length idx ≤ S.length

theorem validIndex_top (v : LuaValue) (S : List LuaValue) : ValidIndex (v :: S) (-1) where
  ne_zero := by decide
  pos := by simp [absIndex]
  le := by simp [absIndex]

/-- The value in the slot of an index. -/
def valueAt (S : List LuaValue) (idx : Int) : LuaValue := slot S (absIndex S.length idx)

theorem valueAt_top (v : LuaValue) (S : List LuaValue) : valueAt (v :: S) (-1) = v :=
  index2adr_top S [] (.fresh .nil) 0 v

section

variable {h₀ : List LuaTable} {hr ir : Nat} {st : StringTable} {pool : Pool} {S : List LuaValue}
  {h : List LuaTable}

/-- `storeString` does to the state what `Pool.store` does to the pool. -/
theorem storeString_eq (hp : StringsAt h₀ hr ir st pool S h) {idx : Int} {str : Bytes}
    (hv : valueAt S idx = .string str) (T : Thread) (p : Nat) :
    ∃ st' h', st.storeString ⟨S, h, T, p⟩ idx =
        .returns ((pool.store str).1, st',
          ⟨S, h', T, max p (S.length + if pool.IsNew str then 2 else 1)⟩) ∧
      StringsAt h₀ hr ir st' (pool.store str).2 S h' ∧ Keeps hr ir h h' ∧
      st'.handle = st.handle ∧ st'.index2string = st.index2string := by
  -- what the indices name while one or two slots lie above `S`
  have hadr : ∀ h T p, index2adr ⟨S, h, T, p⟩ idx = .string str := fun _ _ _ => hv
  have hhandle : ∀ v h T p, index2adr ⟨v :: S, h, T, p⟩ st.handle = .table hr := by
    intro v h T p
    rw [index2adr_mk _ _ _ _ hp.handle_pos, slot_of_le hp.handle_le, hp.handle_slot]
  have hhandle' : ∀ u v h T p, index2adr ⟨u :: v :: S, h, T, p⟩ st.handle = .table hr := by
    intro u v h T p
    rw [index2adr_mk _ _ _ _ hp.handle_pos, slot_of_le (Nat.le_succ_of_le hp.handle_le),
      slot_of_le hp.handle_le, hp.handle_slot]
  have hindex : ∀ v h T p, index2adr ⟨v :: S, h, T, p⟩ st.index2string = .table ir := by
    intro v h T p
    rw [index2adr_mk _ _ _ _ hp.index_pos, slot_of_le hp.index_le, hp.index_slot]
  have hget : rawField h (.table hr) (.string str) = pool.handle.get (.string str) := by
    rw [rawField, hp.handle_table]
    rfl
  by_cases hnew : pool.IsNew str
  · have hnil : pool.handle.get (.string str) = .nil := hnew
    refine ⟨{ st with size := st.size + 1, cacheSize := st.cacheSize + str.length },
      (h.modify hr (·.set (.string str) (integer ↑(st.size + 1)))).modify ir
        (·.set (integer ↑(st.size + 1)) (.string str)), ?_, ?_,
      (Keeps.modify_left h _).trans (Keeps.modify_right _ _), rfl, rfl⟩
    · simp only [StringTable.storeString, pushvalue, hadr, push_mk, rawget, hhandle, hget, hnil,
        index2adr_top, if_true, pop, List.drop_one, List.tail_cons, objlen, pushinteger, rawset,
        LuaValue.isKey_string, hhandle', updateTable, Run.returns_bind, rawseti, hindex,
        Run.pure_eq, Pool.store, hnew, hp.size_eq, List.length_cons]
      congr 4
      omega
    · simp only [Pool.store, hnew, if_true]
      exact { hp with
        source := fun i hi => by
          have := hp.handle_fresh
          have := hp.index_fresh
          rw [List.getElem?_modify_ne _ _ (by omega), List.getElem?_modify_ne _ _ (by omega)]
          exact hp.source i hi
        handle_table := by
          rw [List.getElem?_modify_ne _ _ hp.ne.symm, List.getElem?_modify_eq, hp.handle_table,
            hp.size_eq]
          rfl
        index_table := by
          rw [List.getElem?_modify_eq, List.getElem?_modify_ne _ _ hp.ne, hp.index_table,
            hp.size_eq]
          rfl
        size_eq := by rw [hp.size_eq]
        cacheSize_eq := by rw [hp.cacheSize_eq] }
  · have hne : ¬ pool.handle.get (.string str) = .nil := hnew
    refine ⟨st, h, ?_, ?_, Keeps.refl h, rfl, rfl⟩
    · simp only [StringTable.storeString, pushvalue, hadr, push_mk, rawget, hhandle, hget,
        index2adr_top, hne, if_false, pop, List.drop_one, List.tail_cons, Run.pure_eq, Pool.store,
        hnew, tointeger, Pool.indexOf]
      congr 2
      cases pool.handle.get (.string str) <;> rfl
    · simp only [Pool.store, hnew, if_false]
      exact hp

end

end LuaBinaryTable
