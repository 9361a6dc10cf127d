import LuaBinaryTable.Document.Buffer
import LuaBinaryTable.Writer.Equiv.WriteBinaryTable

/-!
# How `writeBinaryTable` ends

With fuel enough it always returns: a file where the layout of the value is complete, and
otherwise the null pointer (`writeBinaryTable_returns`).  Either way the stack and the tables of
the caller are what they were, as long as the buffer of the Lua stack has the slots that the
writer does not ask for (`writeBinaryTable_restores_iff`).
-/

namespace LuaBinaryTable

open LuaState

variable {env : Env} {h₀ : List LuaTable}

/-- Past the two tables of the string table there is only new heap. -/
theorem Keeps.grows {h h' : List LuaTable} (hk : Keeps h.length (h.length + 1) h h') :
    Grows h h' :=
  ⟨hk.length_le, fun i hi => hk.old i hi (by omega) (by omega)⟩

/-- The file that a run of `writeBinaryTable` returns, if it returns one. -/
def written : Run LuaState (Option Bytes × LuaState) → Option Bytes
  | .returns (file, _) => file
  | _ => none

/-- A run that returns a file leaves a state. -/
theorem exists_state_of_written {x : Run LuaState (Option Bytes × LuaState)} {e : Bytes}
    (hw : written x = some e) : ∃ L, x = .returns (some e, L) := by
  match x, hw with
  | .returns (some _, L), rfl => exact ⟨L, rfl⟩

/-- Where the layout does not exceed the fuel, the run returns. -/
theorem writeBinaryTable_of_stops (hperm : env.sort.Permutes) {S : List LuaValue} {idx : Int}
    (hidx : ValidIndex S idx) (ha : Acyclic h₀ (valueAt S idx)) (T : Thread) {fuel : Nat}
    {d : Doc} (hd : layout env h₀ fuel (valueAt S idx) = d) (hs : d.stops ≠ some .deep) :
    ∃ h', Grows h₀ h' ∧ writeBinaryTable env fuel (.entry S h₀ T) idx =
      .returns (if d.Complete then some d.file else none,
        ⟨S, h', d.threadWritten env S.length S.length T,
          S.length + (2 + d.writeSlots .start)⟩) := by
  have hw := writeBinaryTable_eq hperm hidx ha.closed T le_rfl fuel
  have hpeak : max S.length (S.length + 2 + d.writeSlots .start) =
      S.length + (2 + d.writeSlots .start) := by omega
  rw [hd, hpeak] at hw
  cases hstop : d.stops with
  | none =>
    rw [hstop] at hw
    obtain ⟨h', hk, hr⟩ := hw
    refine ⟨h', hk.grows, ?_⟩
    rw [if_pos (show d.Complete from hstop)]
    exact hr
  | some w =>
    have hnc : ¬ d.Complete := by rw [Doc.Complete, hstop]; simp
    rw [hstop] at hw hs
    rw [if_neg hnc]
    cases w with
    | deep => exact absurd rfl hs
    -- whatever it fails at, `settop` leaves the stack of the entry
    | malformed | unsupported | unsortable =>
      obtain ⟨h', hk, hr⟩ := hw
      exact ⟨h', hk.grows, hr⟩

/-- From some fuel on, the layout is the same and the run returns. -/
theorem writeBinaryTable_returns (hperm : env.sort.Permutes) {S : List LuaValue} {idx : Int}
    (hidx : ValidIndex S idx) (ha : Acyclic h₀ (valueAt S idx)) (T : Thread) :
    ∃ n d, d.stops ≠ some .deep ∧ ∀ fuel, n ≤ fuel →
      layout env h₀ fuel (valueAt S idx) = d ∧
        ∃ h', Grows h₀ h' ∧ writeBinaryTable env fuel (.entry S h₀ T) idx =
          .returns (if d.Complete then some d.file else none,
            ⟨S, h', d.threadWritten env S.length S.length T,
              S.length + (2 + d.writeSlots .start)⟩) := by
  obtain ⟨n, hn⟩ := ha.exists_nested
  have hs := layout_ne_deep hperm hn
  refine ⟨n, _, hs, fun fuel hle => ?_⟩
  have hd := layout_fuel hperm hn hle
  exact ⟨hd, writeBinaryTable_of_stops hperm hidx ha T hd hs⟩

/-- A run that returns a file returns the file of a complete layout. -/
theorem layout_of_writeBinaryTable (hperm : env.sort.Permutes) {S : List LuaValue} {idx : Int}
    (hidx : ValidIndex S idx) (ha : Acyclic h₀ (valueAt S idx)) {T : Thread} {fuel : Nat}
    {e : Bytes} (hw : written (writeBinaryTable env fuel (.entry S h₀ T) idx) = some e) :
    (layout env h₀ fuel (valueAt S idx)).Complete ∧
      e = (layout env h₀ fuel (valueAt S idx)).file := by
  have heq := writeBinaryTable_eq hperm hidx ha.closed T le_rfl fuel
  by_cases hdeep : (layout env h₀ fuel (valueAt S idx)).stops = some .deep
  · rw [hdeep] at heq
    rw [LuaState.entry, heq] at hw
    cases hw
  · obtain ⟨h', _, hr⟩ := writeBinaryTable_of_stops hperm hidx ha T rfl hdeep
    rw [hr, written] at hw
    split_ifs at hw with hc
    exact ⟨hc, (Option.some.inj hw).symm⟩

/-- The state that a run leaves is not overrun exactly where the document fits the buffer. -/
theorem not_overrun_iff {d : Doc} {S : List LuaValue} {h' : List LuaTable} {T : Thread} :
    ¬ LuaState.Overrun ⟨S, h', d.threadWritten env S.length S.length T,
        S.length + (2 + d.writeSlots .start)⟩ ↔
      d.BufferFits env S.length T.slots :=
  not_lt.trans (d.bufferFits_iff S.length).symm

/-- With fuel enough, every run ends in this state. -/
theorem writeBinaryTable_of_nested (hperm : env.sort.Permutes) {S : List LuaValue} {idx : Int}
    (hidx : ValidIndex S idx) {n : Nat} (hn : Nested h₀ n (valueAt S idx)) (T : Thread) {fuel : Nat}
    (hle : n ≤ fuel) :
    ∃ h', Grows h₀ h' ∧ writeBinaryTable env fuel (.entry S h₀ T) idx =
      .returns (if (layout env h₀ n (valueAt S idx)).Complete then
          some (layout env h₀ n (valueAt S idx)).file else none,
        ⟨S, h', (layout env h₀ n (valueAt S idx)).threadWritten env S.length S.length T,
          S.length + (2 + (layout env h₀ n (valueAt S idx)).writeSlots .start)⟩) :=
  writeBinaryTable_of_stops hperm hidx hn.acyclic T (layout_fuel hperm hn hle)
    (layout_ne_deep hperm hn)

/-- A run that returns a file has written nothing behind the buffer exactly where its layout
fits. -/
theorem overrun_of_layout (hperm : env.sort.Permutes) {S : List LuaValue} {idx : Int}
    (hidx : ValidIndex S idx) (ha : Acyclic h₀ (valueAt S idx)) {T : Thread} {fuel : Nat}
    {e : Bytes} {L : LuaState}
    (hw : writeBinaryTable env fuel (.entry S h₀ T) idx = .returns (some e, L)) :
    ¬ L.Overrun ↔ (layout env h₀ fuel (valueAt S idx)).BufferFits env S.length T.slots := by
  obtain ⟨hc, _⟩ := layout_of_writeBinaryTable hperm hidx ha (congrArg written hw)
  obtain ⟨h', _, hr⟩ := writeBinaryTable_of_stops hperm hidx ha T rfl
    (show (layout env h₀ fuel (valueAt S idx)).stops ≠ _ by
      rw [show (layout env h₀ fuel (valueAt S idx)).stops = none from hc]
      simp)
  rw [hw, if_pos hc] at hr
  cases hr
  exact not_overrun_iff

/-- Writing ends with the stack of the caller, and every table of the caller as it was, where it
does not write behind the buffer of the stack. -/
def WriteRestores (env : Env) (h : List LuaTable) (S : List LuaValue) (T : Thread) (idx : Int) :
    Prop :=
  ∃ n, ∀ fuel, n ≤ fuel → ∃ file L,
    writeBinaryTable env fuel (.entry S h T) idx = .returns (file, L) ∧ ¬ L.Overrun ∧
      L.stack = S ∧ ∀ ref, ref < h.length → L.heap[ref]? = h[ref]?

/-- A run that does not fit the buffer writes behind it. -/
theorem not_writeRestores (hperm : env.sort.Permutes) {S : List LuaValue} {idx : Int}
    (hidx : ValidIndex S idx) {n : Nat} (hn : Nested h₀ n (valueAt S idx)) {T : Thread}
    (hfits : ¬ (layout env h₀ n (valueAt S idx)).BufferFits env S.length T.slots) :
    ¬ WriteRestores env h₀ S T idx := by
  rintro ⟨m, hm⟩
  obtain ⟨file, L, hrun, hover, _⟩ := hm (max m n) (le_max_left m n)
  obtain ⟨h', _, hr⟩ := writeBinaryTable_of_nested hperm hidx hn T (le_max_right m n)
  rw [hr] at hrun
  cases hrun
  exact hfits (not_overrun_iff.mp hover)

/-- The Lua state is left as it was found exactly where the buffer of the stack has the slots for
the document. -/
theorem writeBinaryTable_restores_iff (hperm : env.sort.Permutes) {S : List LuaValue}
    {h : List LuaTable} {idx : Int} (hidx : ValidIndex S idx) {n : Nat}
    (hn : Nested h n (valueAt S idx)) (T : Thread) :
    WriteRestores env h S T idx ↔
      (layout env h n (valueAt S idx)).BufferFits env S.length T.slots := by
  constructor
  · intro hrestores
    by_contra hfits
    exact not_writeRestores hperm hidx hn hfits hrestores
  · intro hfits
    refine ⟨n, fun fuel hle => ?_⟩
    obtain ⟨h', hg, hr⟩ := writeBinaryTable_of_nested hperm hidx hn T hle
    exact ⟨_, _, hr, not_overrun_iff.mpr hfits, rfl, hg.old⟩

/-- A table that holds a function. -/
def functionTable : LuaTable := LuaTable.empty.set (.string (bytesOf "f")) (.function 0)

theorem nested_functionTable : Nested [functionTable] 2 (.table 0) := by
  refine ⟨functionTable, rfl, fun e he => ?_⟩
  obtain rfl := List.mem_singleton.mp he
  exact ⟨trivial, trivial⟩

/-- A failed run, for a negative index. -/
theorem writeBinaryTable_restores_functionTable :
    WriteRestores .plain [functionTable] [.nil, .table 0] (.fresh .nil) (-2) := by
  have hn : Nested [functionTable] 2 (valueAt [.nil, .table 0] (-2)) := nested_functionTable
  exact (writeBinaryTable_restores_iff insertionSort_permutes ⟨by decide, by decide, by decide⟩ hn
    (.fresh .nil)).mpr (by decide)

/-! ### Deep nesting -/

/-- Tables `n` deep, each but the last with the next under a key. -/
def nestedUnder (key : LuaValue) (n : Nat) : List LuaTable :=
  (List.range n).map fun i =>
    LuaTable.empty.set key (if i + 1 < n then .table (i + 1) else .boolean true)

section

variable {key : LuaValue} (hkey : key.isKey = true) (n : Nat)

include hkey

/-- The table of each level has one entry, with the next one. -/
theorem getElem?_nestedUnder {i : Nat} (hi : i < n) :
    ∃ t, (nestedUnder key n)[i]? = some t ∧
      t.entries = [(key, if i + 1 < n then .table (i + 1) else .boolean true)] := by
  refine ⟨_, ?_, LuaTable.entries_set_of_get_eq_nil .empty hkey rfl (by split_ifs <;> simp)
    (by decide)⟩
  rw [nestedUnder, List.getElem?_map, List.getElem?_range hi]
  rfl

/-- The tables from the place `i` on are nested as deep as their number. -/
theorem nested_nestedUnder (hs : key.type ≠ .table) :
    ∀ m i : Nat, i + (m + 1) = n → Nested (nestedUnder key n) (m + 2) (.table i)
  | m, i, hi => by
    obtain ⟨t, ht, hentries⟩ := getElem?_nestedUnder hkey n (show i < n by omega)
    refine ⟨t, ht, fun e he => ?_⟩
    rw [hentries] at he
    obtain rfl := List.mem_singleton.mp he
    refine ⟨nested_of_scalar (Nat.succ_pos m) hs, ?_⟩
    match m with
    | 0 =>
      rw [if_neg (by omega)]
      trivial
    | m + 1 =>
      rw [if_pos (by omega)]
      exact nested_nestedUnder hs m (i + 1) (by omega)

/-- What holds of the innermost value, and of a table where it holds of the value in it, holds of
all levels. -/
theorem nestedUnder_induction {P : LuaValue → Prop} (hleaf : P (.boolean true))
    (hnode : ∀ ref t v, (nestedUnder key n)[ref]? = some t → t.entries = [(key, v)] → P v →
      P (.table ref)) : ∀ m i : Nat, i + (m + 1) = n → P (.table i)
  | m, i, hi => by
    obtain ⟨t, ht, hentries⟩ := getElem?_nestedUnder hkey n (show i < n by omega)
    refine hnode i t _ ht hentries ?_
    match m with
    | 0 => rwa [if_neg (by omega)]
    | m + 1 =>
      rw [if_pos (by omega)]
      exact nestedUnder_induction hleaf hnode m (i + 1) (by omega)

end

/-- Fifty arrays in one another are written behind the buffer of a fresh Lua state. -/
theorem not_writeRestores_arrays :
    ¬ WriteRestores .plain (nestedUnder (integer 1) 50) [.table 0] (.fresh .nil) (-1) :=
  not_writeRestores insertionSort_permutes (validIndex_top _ [])
    (nested_nestedUnder (by decide) 50 (by decide) 49 0 rfl) (by decide +kernel)

end LuaBinaryTable
