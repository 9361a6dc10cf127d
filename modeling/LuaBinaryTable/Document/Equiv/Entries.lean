import LuaBinaryTable.Document.Equiv.Layout
import LuaBinaryTable.Lua.Border

/-!
# The entries that are written

`written` lists the entries of a table that `writeTable` writes: those of the indices up to the
border where it takes the table for an array, else those of the sorted keys.  The layout of the
table is made of them (`layoutTable_eq_written`), and so is what `writeTable` writes
(`writes_written`).  They are the entries of the table unless the number of entries happens to be
a border above a hole (`keepsEntries_iff`).
-/

namespace LuaBinaryTable

variable {env : Env}

namespace LuaTable

/-- The entries that `writeTable` writes, in their order, unless the sort raises. -/
def written (env : Env) (t : LuaTable) : Option Entries :=
  if t.entries.length = t.border then some (t.indexEntries t.entries.length)
  else (t.sortedKeys env).map fun ks => ks.map fun k => (k, t.get k)

/-- No entry is dropped and none invented: a table that is taken for an array has the keys of one,
and the entries written are those of the table. -/
def KeepsEntries (env : Env) (t : LuaTable) : Prop :=
  (t.IsArray → ∀ k, k ∈ t.keys ↔ ∃ i, i < t.entries.length ∧ k = integer ↑(i + 1)) ∧
    ∀ es, t.written env = some es → es.Perm t.entries

end LuaTable

/-- The document of the entries written: an array is written as the values of its entries, another
table as keys and values. -/
def writtenDoc (env : Env) (lay : LuaValue → Doc) (t : LuaTable) : Doc :=
  match t.written env with
  | some es =>
    if t.entries.length = t.border then .array t.entries.length (es.map fun e => lay e.2)
    else .table t.entries.length (es.flatMap fun e => [lay e.1, lay e.2])
  | none => .table t.entries.length [.stop .unsortable]

variable {t : LuaTable}

/-- Both branches of `writeTable` write the values of its entries: an array those under its
indices, a table also the keys. -/
theorem layoutTable_eq_written (lay : LuaValue → Doc) (hne : t.entries.length ≠ 0) :
    layoutTable env lay t = writtenDoc env lay t := by
  rw [layoutTable, if_neg hne, writtenDoc, LuaTable.written]
  by_cases harray : t.entries.length = t.border
  · have hvalues : ∀ n i : Nat, (arrayEntries i (t.elements i n)).map (fun e => lay e.2) =
        (t.elements i n).map lay := by
      intro n
      induction n with
      | zero => exact fun i => rfl
      | succ n ih =>
        intro i
        rw [LuaTable.elements, arrayEntries, List.map_cons, ih, List.map_cons]
    rw [if_pos harray, if_pos harray]
    simp only [if_pos harray]
    rw [LuaTable.indexEntries_eq, hvalues]
  · rw [if_neg harray, if_neg harray]
    cases t.sortedKeys env with
    | none => rfl
    | some ks =>
      simp only [Option.map_some, if_neg harray, LuaTable.alternate, List.map_flatMap,
        List.flatMap_map]
      rfl

/-- The border of an array that has all its indices leaves no key outside. -/
theorem perm_indexEntries_of_full (hlen : t.entries.length = t.border)
    (hfull : ∀ i, i < t.border → t.get (integer ↑(i + 1)) ≠ .nil) :
    t.entries.Perm (t.indexEntries t.entries.length) := by
  have hb := t.border_legal.1
  have hh : t.holes t.border = 0 := LuaTable.holes_eq_zero_iff.mpr hfull
  have hcount := LuaTable.length_add_holes (t := t) (b := t.border) (by omega)
  rw [hlen]
  exact LuaTable.perm_of_no_holes (by omega) hh (by omega)

/-- The entries of a table are written, unless the table has as many entries as a border above a
hole. -/
theorem keepsEntries_iff (hperm : env.sort.Permutes) (t : LuaTable) :
    t.KeepsEntries env ↔
      ¬ (t.entries.length = t.border ∧ ∃ i, i < t.border ∧ t.get (integer ↑(i + 1)) = .nil) := by
  constructor
  · rintro ⟨hkeys, _⟩ ⟨hlen, i, hi, hnil⟩
    -- the hole would be a key
    have hmem := (hkeys ⟨by omega, hlen⟩ (integer ↑(i + 1))).mpr ⟨i, hlen ▸ hi, rfl⟩
    obtain ⟨e, he, hek⟩ := List.mem_map.mp hmem
    apply t.values_present e he
    rw [← t.get_of_mem he, hek, hnil]
  · intro hno
    have hfull : t.entries.length = t.border →
        t.entries.Perm (t.indexEntries t.entries.length) := fun hlen =>
      perm_indexEntries_of_full hlen fun i hi hnil => hno ⟨hlen, i, hi, hnil⟩
    constructor
    · rintro ⟨_, hlen⟩ k
      have hkeys := (hfull hlen).map Prod.fst
      rw [LuaTable.keys, hkeys.mem_iff, LuaTable.indexEntries]
      simp only [List.map_map, List.mem_map, List.mem_range, Function.comp_apply, eq_comm]
    · intro es hes
      unfold LuaTable.written at hes
      split_ifs at hes with hlen
      · cases hes
        exact (hfull hlen).symm
      · obtain ⟨ks, hks, rfl⟩ := Option.map_eq_some_iff.mp hes
        rw [← t.map_keys_get]
        exact (sortedKeys_perm hperm hks).map _

/-- A pair of elements and a name. -/
def mixedTable : LuaTable :=
  ((LuaTable.empty.set (integer 1) (integer 5)).set (integer 2) (integer 7)).set
    (.string (bytesOf "x")) (.boolean true)

theorem keepsEntries_mixed : mixedTable.KeepsEntries .plain := by
  apply (@keepsEntries_iff .plain insertionSort_permutes mixedTable).mpr
  rintro ⟨hlen, _⟩
  exact absurd hlen (by decide +kernel)

/-- `{nil, 5, x = true}`: the border 2, which Lua returns for the array of this constructor, is
above a hole. -/
def gapTable : LuaTable where
  entries := [(integer 2, integer 5), (.string (bytesOf "x"), .boolean true)]
  border := 2
  keys_legal := by decide
  keys_distinct := by decide
  values_present := by decide
  length_lt := by decide
  border_legal := ⟨by decide, by decide +kernel, by decide +kernel⟩

/-- The entry `x` is not written. -/
theorem not_keepsEntries_gap : ¬ gapTable.KeepsEntries .plain := by
  rintro ⟨hkeys, _⟩
  have hmem : (LuaValue.string (bytesOf "x")) ∈ gapTable.keys := by decide
  obtain ⟨i, _, hi⟩ := (hkeys (by decide) _).mp hmem
  cases hi

end LuaBinaryTable
