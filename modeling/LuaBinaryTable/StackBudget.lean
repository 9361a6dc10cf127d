import LuaBinaryTable.Document.Budget
import LuaBinaryTable.Reader.Equiv.Clean
import LuaBinaryTable.Writer.Equiv.Clean

/-!
# The stack budget

Lua guarantees `LUA_MINSTACK` slots to a C function that asks for no more, and neither
`writeBinaryTable` nor `parseBinaryTable` asks.  They stay within them exactly where the nesting of
the document leaves room (`stackBudget_iff`).
-/

namespace LuaBinaryTable

variable {env : Env} {h : List LuaTable}

/-- `writeBinaryTable` returns and has never used more slots than Lua guarantees. -/
def WriterInBudget (env : Env) (h : List LuaTable) (S : List LuaValue) (T : Thread) (idx : Int) :
    Prop :=
  ∃ n, ∀ fuel, n ≤ fuel → ∃ file L,
    writeBinaryTable env fuel (.entry S h T) idx = .returns (file, L) ∧
      L.peak ≤ S.length + luaMinStack

/-- `parseBinaryTable` returns or raises and has never used more slots than Lua guarantees. -/
def ReaderInBudget (sizes : TableSizes) (h : List LuaTable) (S : List LuaValue) (T : Thread)
    (data : Bytes) : Prop :=
  match Reader.parseBinaryTable sizes (.entry S h T) data with
  | .returns (_, s) => s.L.peak ≤ S.length + luaMinStack
  | .raises s => s.L.peak ≤ S.length + luaMinStack
  | .diverges => False

/-- The string table takes two slots of the writer. -/
theorem writerInBudget_iff_writeSlots (hperm : env.sort.Permutes) {S : List LuaValue} {idx : Int}
    (hidx : ValidIndex S idx) {n : Nat} (hn : Nested h n (valueAt S idx)) (T : Thread) :
    WriterInBudget env h S T idx ↔
      (layout env h n (valueAt S idx)).writeSlots .start ≤ luaMinStack - 2 := by
  have hrun : ∀ fuel, n ≤ fuel → ∃ file h' T', writeBinaryTable env fuel (.entry S h T) idx =
      .returns (file, ⟨S, h', T',
        S.length + (2 + (layout env h n (valueAt S idx)).writeSlots .start)⟩) := by
    intro fuel hle
    obtain ⟨h', _, hr⟩ := writeBinaryTable_of_nested hperm hidx hn T hle
    exact ⟨_, h', _, hr⟩
  unfold luaMinStack
  constructor
  -- more fuel changes nothing, so the two runs are compared at the greater of the two
  · rintro ⟨m, hm⟩
    obtain ⟨file, L, hr, hpeak⟩ := hm (max m n) (le_max_left m n)
    obtain ⟨file', h', T', hr'⟩ := hrun (max m n) (le_max_right m n)
    rw [hr] at hr'
    cases hr'
    simp only [luaMinStack] at hpeak
    omega
  · intro hle
    refine ⟨n, fun fuel hfuel => ?_⟩
    obtain ⟨file, h', T', hr⟩ := hrun fuel hfuel
    refine ⟨file, _, hr, ?_⟩
    simp only [luaMinStack]
    omega

/-- The string table takes one slot of the reader, and a message with its `nil` two. -/
theorem readerInBudget_iff_slots (sizes : TableSizes) (S : List LuaValue) (T : Thread)
    (data : Bytes) :
    ReaderInBudget sizes h S T data ↔ (readDocument data).slots sizes ≤ luaMinStack := by
  have hd := Reader.decodes_entry sizes S h T data
  have hout := outcome_readDocument sizes data
  have hmax : ∀ m, max S.length (S.length + m) ≤ S.length + luaMinStack ↔ m ≤ luaMinStack := by
    omega
  unfold ReaderInBudget
  match Reader.parseBinaryTable sizes (.entry S h T) data, hd with
  | .returns (n, s), hd =>
    rcases hd with ⟨_, _, strs, d, _, hL⟩ | ⟨_, _, _, hpeak⟩
    · simp only [hL]
      exact hmax _
    · simp only [hpeak]
      exact hmax _
  | .raises s, ⟨_, hpeak⟩ =>
    simp only [hpeak]
    exact hmax _
  | .diverges, ho => exact absurd ho hout

/-- The writer and the reader keep to the slots that Lua guarantees exactly where the document fits
them, the tables of the strings put aside. -/
theorem stackBudget_iff (hperm : env.sort.Permutes) {S : List LuaValue} {idx : Int}
    (hidx : ValidIndex S idx) {n : Nat} (hn : Nested h n (valueAt S idx)) (T : Thread) :
    (WriterInBudget env h S T idx ↔
      (layout env h n (valueAt S idx)).WriteFits (luaMinStack - 2) []) ∧
    ∀ (sizes : TableSizes) (h' : List LuaTable) (S' : List LuaValue) (T' : Thread) (data : Bytes),
      ReaderInBudget sizes h' S' T' data ↔
        ∀ strs d r, readDocument data = .body strs d r →
          sizes (toInt32 strs.length) 0 = true → d.ReadFits sizes (luaMinStack - 1) := by
  constructor
  · rw [writerInBudget_iff_writeSlots hperm hidx hn T]
    exact Doc.writeSlots_le_iff _ _ .start [] .start
  · intro sizes h' S' T' data
    rw [readerInBudget_iff_slots]
    cases readDocument data with
    | body strs d r =>
      -- a failure pushes two values only after all others are gone
      have hslots : (Reading.body strs d r).slots sizes ≤ luaMinStack ↔
          (sizes (toInt32 strs.length) 0 = true → d.slots sizes ≤ luaMinStack - 1) := by
        rw [Reading.slots, Doc.ite_zero_le_iff]
        refine imp_congr_right fun _ => ?_
        unfold luaMinStack
        split_ifs <;> omega
      rw [hslots, Doc.slots_le_iff]
      constructor
      · rintro hfits _ _ _ ⟨⟩
        exact hfits
      · exact fun hfits => hfits strs d r rfl
    | brokenPool size strs =>
      refine iff_of_true ?_ (by simp)
      rw [Reading.slots, luaMinStack]
      split_ifs <;> omega
    | _ => exact iff_of_true (show 2 ≤ 20 by decide) (by simp)

/-- Tables `n` deep, each but the last with the next under a name. -/
def nestedTables (n : Nat) : List LuaTable := nestedUnder (.string [97]) n

theorem nested_nestedTables (n m i : Nat) (hi : i + (m + 1) = n) :
    Nested (nestedTables n) (m + 2) (.table i) :=
  nested_nestedUnder rfl n (by decide) m i hi

/-- Seven tables around one more, each under a name. -/
theorem not_writerInBudget_nested :
    ¬ WriterInBudget .plain (nestedTables 8) [.table 0] (.fresh .nil) 1 := by
  intro hbudget
  have hle := (@writerInBudget_iff_writeSlots .plain (nestedTables 8) insertionSort_permutes
    [.table 0] 1 ⟨by decide, by decide, by decide⟩ 9 (nested_nestedTables 8 7 0 rfl)
    (.fresh .nil)).mp hbudget
  exact absurd hle (by decide)

/-- Six tables around one more, and the document of the value `true`. -/
theorem stackBudget_nested :
    WriterInBudget .plain (nestedTables 7) [.table 0] (.fresh .nil) 1 ∧
      ReaderInBudget (fun _ _ => true) [] [] (.fresh .nil) [0x62, 0x74, 1, 0, 0, 0, 0, 0, 2] := by
  have hbudget := @stackBudget_iff .plain (nestedTables 7) insertionSort_permutes [.table 0] 1
    ⟨by decide, by decide, by decide⟩ 8 (nested_nestedTables 7 6 0 rfl) (.fresh .nil)
  refine ⟨hbudget.1.mpr ?_, (hbudget.2 _ _ _ _ _).mpr ?_⟩
  · exact (Doc.writeSlots_le_iff _ _ .start [] .start).mp (by decide)
  · rintro strs d r hread -
    cases hread
    exact Nat.le_add_left 1 18

end LuaBinaryTable
