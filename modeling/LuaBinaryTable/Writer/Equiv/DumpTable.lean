import LuaBinaryTable.Writer.Equiv.Clean
import LuaBinaryTable.Writer.Equiv.DumpValue

/-!
# How `dumpTable` ends

On a value that leads to no cycle `dumpTable` returns, as `writeBinaryTable` does
(`serialise_terminates`).  It restores the stack and prints every entry of every table exactly where
no comparison raises in the sort of the keys of a table (`dumpTable_complete_iff`).
-/

namespace LuaBinaryTable

open LuaState

variable {env : Env} {h : List LuaTable} {T : Thread}

/-- `dumpTable` returns what the printer has appended to the first word. -/
theorem dumpTable_bind (fuel : Nat) (S : List LuaValue) (idx maxIndent : Int) :
    dumpTable env fuel (.entry S h T) idx maxIndent =
      (dumpValue env fuel idx 1 maxIndent ⟨S, h, T, S.length⟩
          (BinaryWriter.empty.writeString "return ") >>= fun a =>
        .returns (a.2.data, a.1)) := rfl

theorem dumpTable_returns (hsort : env.sort.Rearranges) {S : List LuaValue} {idx : Int}
    (hidx : ValidIndex S idx) (hT : LibraryTable h T.tableLib) {fuel : Nat}
    (hn : Nested h fuel (valueAt S idx)) (maxIndent : Int) :
    ∃ text L, dumpTable env fuel (.entry S h T) idx maxIndent = .returns (text, L) := by
  obtain ⟨L, stream, hrun, _⟩ := dumpValue_leaves hsort fuel S h T S.length idx 1 maxIndent
    (BinaryWriter.empty.writeString "return ") rfl hT hidx hn
  rw [dumpTable_bind, hrun]
  exact ⟨stream.data, L, rfl⟩

/-- Both runs terminate on every value of a finite heap that leads to no cycle. -/
theorem serialise_terminates (hsort : env.sort.Rearranges) {S : List LuaValue} {idx : Int}
    (hidx : ValidIndex S idx) (hclosed : Closed h (valueAt S idx))
    (hcycle : ¬ ReachesCycle h (valueAt S idx)) (hT : LibraryTable h T.tableLib) :
    ∃ n, ∀ fuel, n ≤ fuel →
      (∃ file L, writeBinaryTable env fuel (.entry S h T) idx = .returns (file, L)) ∧
        ∀ maxIndent : Int, ∃ text L,
          dumpTable env fuel (.entry S h T) idx maxIndent = .returns (text, L) := by
  have ha : Acyclic h (valueAt S idx) := acyclic_iff.mpr ⟨hclosed, hcycle⟩
  obtain ⟨m, hm⟩ := ha.exists_nested
  obtain ⟨n, d, _, hwrite⟩ := writeBinaryTable_returns hsort.permutes hidx ha T
  refine ⟨max m n, fun fuel hle => ⟨?_, fun maxIndent => ?_⟩⟩
  · obtain ⟨_, h', _, hr⟩ := hwrite fuel (le_trans (le_max_right m n) hle)
    exact ⟨_, _, hr⟩
  · exact dumpTable_returns hsort hidx hT (hm.mono (le_trans (le_max_left m n) hle)) maxIndent

/-- The library table, with one of its functions. -/
def stdTable : LuaTable := LuaTable.empty.set (.string (bytesOf "sort")) (.function 1)

theorem libraryTable_std (t : LuaTable) : LibraryTable [t, stdTable] (.table 1) :=
  ⟨1, stdTable, rfl, rfl, by decide⟩

/-- Two references to one table, which is no cycle. -/
def diamondTable : LuaTable := (LuaTable.empty.set (integer 1) (.table 1)).set (integer 2) (.table 1)

theorem acyclic_diamond : Acyclic [diamondTable, stdTable] (.table 0) := by
  have hleaf : Acyclic [diamondTable, stdTable] (.table 1) :=
    .table rfl
      (fun e he => by
        obtain rfl := List.mem_singleton.mp he
        exact .scalar (by decide))
      fun e he => by
        obtain rfl := List.mem_singleton.mp he
        exact .scalar (by decide)
  have hentries : diamondTable.entries = [(integer 1, .table 1), (integer 2, .table 1)] := by
    decide +kernel
  refine .table rfl ?_ ?_
  · intro e he
    rw [hentries] at he
    simp only [List.mem_cons, List.not_mem_nil, or_false] at he
    rcases he with rfl | rfl <;> exact .scalar (by simp [integer, LuaValue.type])
  · intro e he
    rw [hentries] at he
    simp only [List.mem_cons, List.not_mem_nil, or_false] at he
    rcases he with rfl | rfl <;> exact hleaf

theorem serialise_terminates_diamond :
    ∃ n, ∀ fuel, n ≤ fuel →
      (∃ file L, writeBinaryTable .plain fuel (.entry [.table 0] [diamondTable, stdTable]
        (.fresh (.table 1))) (-1) = .returns (file, L)) ∧
        ∀ maxIndent : Int, ∃ text L,
          dumpTable .plain fuel (.entry [.table 0] [diamondTable, stdTable] (.fresh (.table 1))) (-1)
            maxIndent = .returns (text, L) :=
  serialise_terminates insertionSort_rearranges (validIndex_top _ [])
    (acyclic_iff.mp acyclic_diamond).1 (acyclic_iff.mp acyclic_diamond).2
    (libraryTable_std _)

/-! ### A table that holds itself -/

def selfTable : LuaTable := LuaTable.empty.set (integer 1) (.table 0)

theorem closed_selfTable : Closed [selfTable] (.table 0) := by
  have hpoint : ∀ {r s : Nat}, Points [selfTable] r s → s = 0 := by
    rintro r s ⟨t, ht, e, he, hs⟩
    obtain rfl : r = 0 := by simpa using (List.getElem?_eq_some_iff.mp ht).1
    cases ht
    have hentries : selfTable.entries = [(integer 1, .table 0)] := by decide
    rw [hentries, List.mem_singleton] at he
    subst he
    rcases hs with hs | hs
    · cases hs
    · cases hs
      rfl
  rintro r ⟨r₀, hv, hr⟩
  cases hv
  rcases Relation.ReflTransGen.cases_tail hr with rfl | ⟨s, _, hp⟩
  · exact Nat.one_pos
  · rw [hpoint hp]
    exact Nat.one_pos

theorem layout_selfTable : ∀ fuel,
    (layout .plain [selfTable] fuel (.table 0)).stops = some .deep
  | 0 => rfl
  | fuel + 1 => by
    have hlen : selfTable.entries.length = 1 := by decide
    have hborder : selfTable.border = 1 := by decide +kernel
    have hget : selfTable.get (integer (1 : Nat)) = .table 0 := by decide +kernel
    have ht : [selfTable][0]? = some selfTable := rfl
    simp only [layout, ht, layoutTable, hlen, hborder, LuaTable.elements, hget, List.map_cons,
      List.map_nil, if_true, Nat.one_ne_zero, if_false, Doc.stops, Doc.stopsItems,
      layout_selfTable fuel]
    rfl

/-- `t[1] = t`: no bound on the depth of the recursion is enough. -/
theorem not_serialise_terminates_selfTable :
    ReachesCycle [selfTable] (.table 0) ∧
      ∀ fuel, writeBinaryTable .plain fuel (.entry [.table 0] [selfTable] (.fresh .nil)) (-1) =
        .diverges := by
  have hpoint : Points [selfTable] 0 0 :=
    ⟨selfTable, rfl, (integer 1, .table 0), by decide, Or.inr rfl⟩
  refine ⟨⟨0, ⟨0, rfl, .refl⟩, .single hpoint⟩, fun fuel => ?_⟩
  have hw := @writeBinaryTable_eq .plain [selfTable] insertionSort_permutes [.table 0] (-1)
    (validIndex_top _ []) closed_selfTable (.fresh .nil) 1 le_rfl fuel
  rw [valueAt_top, layout_selfTable fuel] at hw
  exact hw

/-! ### Complete dumps -/

theorem sortedEntries_perm {t : LuaTable} {ks : List LuaValue} (hks : ks.Perm t.keys)
    (hsorted : t.sortedKeys env = some ks) : (t.sortedEntries env).Perm t.entries := by
  rw [LuaTable.sortedEntries, hsorted, Option.getD_some, ← t.map_keys_get]
  exact hks.map _

theorem sortable_iff (hraises : env.sort.RaisesByComparing) {v : LuaValue} :
    Sortable env h v ↔ ∀ r t, Reaches h v r → h[r]? = some t →
      ∀ a b, SortProgram.Asks (sortComp env) a b (env.sort t.keys) → sortComp env a b ≠ none := by
  have hone : ∀ t : LuaTable, t.sortedKeys env ≠ none ↔
      ∃ ks, (env.sort t.keys).run (sortComp env) = .ok ks := by
    intro t
    unfold LuaTable.sortedKeys
    cases (env.sort t.keys).run (sortComp env) with
    | ok ks => simp
    | error ks => simp
  unfold Sortable
  simp only [hone, Sorter.run_ok_iff hraises]

/-- `dumpTable` restores the stack and prints each entry of every table once, in some order, exactly
where no comparison in the sort of a table's keys raises. -/
theorem dumpTable_complete_iff (hsort : env.sort.Rearranges)
    (hraises : env.sort.RaisesByComparing) {S : List LuaValue} {idx : Int}
    (hidx : ValidIndex S idx) (ha : Acyclic h (valueAt S idx)) (hT : LibraryTable h T.tableLib)
    (maxIndent : Int) :
    (∃ n, ∀ fuel, n ≤ fuel → ∃ text L,
      dumpTable env fuel (.entry S h T) idx maxIndent = .returns (text, L) ∧ L.stack = S ∧
        ∃ order : Nat → Entries,
          (∀ r t, Reaches h (valueAt S idx) r → h[r]? = some t → (order r).Perm t.entries) ∧
            text = bytesOf "return " ++ dumpText env order fuel (valueAt S idx) 1 maxIndent) ↔
      ∀ r t, Reaches h (valueAt S idx) r → h[r]? = some t → ∀ a b,
        SortProgram.Asks (sortComp env) a b (env.sort t.keys) → sortComp env a b ≠ none := by
  rw [← sortable_iff hraises]
  obtain ⟨m, hm⟩ := ha.exists_nested
  constructor
  · rintro ⟨n, hn⟩
    -- with a table whose sort raises there is a value too many on the stack at the end
    by_contra hbad
    obtain ⟨text, L, hrun, hstack, _⟩ := hn (max m n) (le_max_right m n)
    obtain ⟨L', stream, hr, extra, h', T', p, rfl, _, _, hlen, _⟩ :=
      dumpValue_leaves_some hsort (max m n) S h T S.length idx 1 maxIndent
        (BinaryWriter.empty.writeString "return ") (Grows.refl h) rfl hT hidx
        (hm.mono (le_max_left m n)) fun hp => hbad hp.2
    rw [dumpTable_bind, hr] at hrun
    cases hrun
    have := congrArg List.length hstack
    rw [List.length_append] at this
    omega
  · intro hs
    refine ⟨m, fun fuel hle => ?_⟩
    obtain ⟨L, stream, hr, h', T', p, rfl, _, _, hdata⟩ := dumpValue_prints hsort.permutes fuel S h
      T S.length idx 1 maxIndent (BinaryWriter.empty.writeString "return ") (Grows.refl h) hidx
      ⟨hm.mono hle, hs⟩
    rw [dumpTable_bind, hr]
    refine ⟨stream.data, _, rfl, rfl, printOrder env h, ?_, ?_⟩
    · intro r t hreach ht
      obtain ⟨ks, hks⟩ := Option.ne_none_iff_exists'.mp (hs r t hreach ht)
      rw [printOrder, ht, Option.elim_some]
      exact sortedEntries_perm (hsort _ _ _ (Or.inl (run_of_sortedKeys hks))) hks
    · rw [hdata, BinaryWriter.data_writeString, BinaryWriter.data_empty, List.nil_append]

theorem sortable_diamond : Sortable .plain [diamondTable, stdTable] (.table 0) := by
  have hsorted : ∀ t ∈ [diamondTable, stdTable], t.sortedKeys .plain ≠ none := by decide +kernel
  exact fun r t _ ht => hsorted t (List.mem_of_getElem? ht)

theorem dumpTable_complete_diamond :
    ∃ n, ∀ fuel, n ≤ fuel → ∃ text L,
      dumpTable .plain fuel (.entry [.table 0] [diamondTable, stdTable] (.fresh (.table 1))) (-1) 0 =
          .returns (text, L) ∧ L.stack = [.table 0] ∧
        ∃ order : Nat → Entries,
          (∀ r t, Reaches [diamondTable, stdTable] (.table 0) r →
            [diamondTable, stdTable][r]? = some t → (order r).Perm t.entries) ∧
            text = bytesOf "return " ++ dumpText .plain order fuel (.table 0) 1 0 :=
  (dumpTable_complete_iff insertionSort_rearranges insertionSort_raisesByComparing
    (validIndex_top _ []) acyclic_diamond (libraryTable_std _) 0).mpr
    ((sortable_iff insertionSort_raisesByComparing).mp sortable_diamond)

/-- A table with the keys `true` and `false`. -/
def flagsTable : LuaTable :=
  (LuaTable.empty.set (.boolean true) (.boolean true)).set (.boolean false) (.boolean true)

/-- The two booleans cannot be compared: no entry is printed, and a slot is left. -/
theorem not_dumpTable_complete_flags :
    Acyclic [flagsTable, stdTable] (.table 0) ∧
      ∀ fuel, ∃ L, dumpTable .plain (fuel + 1)
          (.entry [.table 0] [flagsTable, stdTable] (.fresh (.table 1))) (-1) 0 =
        .returns (bytesOf "return {}", L) ∧ L.stack = [.table 2, .table 0] := by
  have hentries : flagsTable.entries =
      [(.boolean true, .boolean true), (.boolean false, .boolean true)] := by decide
  refine ⟨.table rfl ?_ ?_, fun fuel => ?_⟩
  · intro e he
    rw [hentries] at he
    simp only [List.mem_cons, List.not_mem_nil, or_false] at he
    rcases he with rfl | rfl <;> exact .scalar (by decide)
  · intro e he
    rw [hentries] at he
    simp only [List.mem_cons, List.not_mem_nil, or_false] at he
    rcases he with rfl | rfl <;> exact .scalar (by decide)
  · have hrun : ((Env.plain.sort flagsTable.keys).run (sortComp .plain)) =
        .error [.boolean true, .boolean false] := by
      rw [LuaTable.keys, hentries]
      rfl
    rw [dumpTable_bind, dumpValue_unsorted (validIndex_top _ []) (valueAt_top _ []) rfl 1 0 _ _ _
      (libraryTable_std _) hrun]
    exact ⟨_, rfl, rfl⟩

end LuaBinaryTable
