import LuaBinaryTable.Document.Equiv.Size
import LuaBinaryTable.RoundTrip

/-!
# How long a file is

The encoder knows nothing of tables that are shared: it writes a table once for each path to it.
`writeBinaryTable_size` bounds the length of a file, from both sides, by the nodes of the tree that
the value unfolds to, and the bytes of the pool.
-/

namespace LuaBinaryTable

variable {env : Env} {h₀ : List LuaTable}

/-- The length of a file is the header, the pool, and a number of bytes between half the nodes of
the value and nine times as many.  The lower bound is for values of which nothing is lost. -/
theorem writeBinaryTable_size (hperm : env.sort.Permutes) {S : List LuaValue} {idx : Int}
    (hidx : ValidIndex S idx) (ha : Acyclic h₀ (valueAt S idx)) {T : Thread} {fuel : Nat}
    {e : Bytes} (hw : written (writeBinaryTable env fuel (.entry S h₀ T) idx) = some e)
    (hpool : ((layout env h₀ fuel (valueAt S idx)).collect []).length < 2 ^ 31) :
    e.length ≤ 8 + Doc.poolSize ((layout env h₀ fuel (valueAt S idx)).collect []) +
        9 * nodes h₀ fuel (valueAt S idx) ∧
      ((∀ ref t, Reaches h₀ (valueAt S idx) ref → h₀[ref]? = some t → t.Contiguous) →
        2 * (8 + Doc.poolSize ((layout env h₀ fuel (valueAt S idx)).collect [])) +
          nodes h₀ fuel (valueAt S idx) < 2 * e.length) := by
  obtain ⟨hc, rfl⟩ := layout_of_writeBinaryTable hperm hidx ha hw
  rw [Doc.file_eq hc hpool, Doc.length_encodeFile]
  have hupper := nodes_layout_le (h := h₀) hperm fuel (valueAt S idx)
  have hlower := @lt_nodes_layout env h₀ hperm fuel (valueAt S idx)
  generalize layout env h₀ fuel (valueAt S idx) = d at *
  have hmost := d.encode_le_nodes (d.collect [])
  have hleast := d.nodes_le_encode (d.collect []) hc
  refine ⟨by omega, fun hcont => ?_⟩
  have hnodes := hlower hcont hc
  omega

theorem Portable.contiguous {limit : Nat} {v : LuaValue} (hp : Portable limit h₀ v) :
    ∀ ref t, Reaches h₀ v ref → h₀[ref]? = some t → t.Contiguous := by
  induction hp with
  | scalar hv =>
    rintro ref t ⟨_, rfl, _⟩
    exact absurd rfl hv
  | table ht _ hcont _ _ ihk ihv =>
    intro ref t hr ht'
    rcases (reaches_table_iff ht).mp hr with rfl | ⟨e, he, hk | hv⟩
    · cases ht.symm.trans ht'
      exact hcont
    · exact ihk e he ref t hk ht'
    · exact ihv e he ref t hv ht'

/-- The sixteen bytes of `flagTable`. -/
theorem writeBinaryTable_size_flagTable :
    16 ≤ 8 + 3 + 9 * nodes [flagTable] 3 (.table 0) ∧
      2 * (8 + 3) + nodes [flagTable] 3 (.table 0) < 2 * 16 := by
  have hpool : Doc.poolSize ((layout .plain [flagTable] 3 (.table 0)).collect []) = 3 := by
    rw [collect_flagTable]
    rfl
  obtain ⟨hle, hlt⟩ := @writeBinaryTable_size .plain [flagTable] insertionSort_permutes [.table 0]
    (-1) (validIndex_top _ []) portable_flagTable.acyclic (.fresh .nil) 3
    [98, 116, 1, 0, 1, 0, 0, 0, 1, 0, 97, 21, 1, 13, 1, 2] written_flagTable
    (by rw [valueAt_top, collect_flagTable]; decide)
  rw [valueAt_top, hpool] at hle hlt
  exact ⟨hle, hlt portable_flagTable.contiguous⟩

end LuaBinaryTable
