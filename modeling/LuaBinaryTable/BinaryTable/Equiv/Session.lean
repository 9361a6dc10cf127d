import LuaBinaryTable.BinaryTable.Equiv.Functions
import LuaBinaryTable.BinaryTable.Session
import LuaBinaryTable.RoundTrip

/-!
# What is stored can be loaded

`reachable_held`: wherever a program gets, each file under which a value is stored holds a
document of that value as it was.  So `parseFromFile` brings it back (`parseFromFile_restores`),
whatever has become of the tables in the meantime, and whatever calls were made and failed.
-/

namespace LuaBinaryTable

open LuaState Reader

/-! ### More fuel -/

section

variable {α : Type} {f g : LuaState → Run LuaState (α × LuaState)}

end

section

variable {host : Host} {w : World} {s : FileState} {args : List LuaValue}

end

/-- The bytes are a document that the decoder accepts and builds a copy of the value of. -/
def Snapshot.HeldBy (sizes : TableSizes) (snap : Snapshot) (data : Bytes) : Prop :=
  (readDocument data).Legal sizes ∧ ∃ strs d r, readDocument data = .body strs d r ∧ d.Complete ∧
    ∀ h, SameFrom h.length snap.heap (d.materialise h).2 snap.value (d.materialise h).1

variable {env : Env} {sizes : TableSizes} {limit : Nat}

theorem Snapshot.heldBy_of_encodesTo (hperm : env.sort.Permutes) (hlimit : limit ≤ 2 ^ 31)
    (hsizes : Accepts sizes limit) {snap : Snapshot} (hs : snap.Storable env limit) {data : Bytes}
    (he : EncodesTo env snap.heap snap.value (some data)) : snap.HeldBy sizes data := by
  obtain ⟨m, hm⟩ := he
  have hdata := hm m le_rfl
  split_ifs at hdata with hc
  cases hdata
  obtain ⟨_, hread, ho, hsame⟩ := readDocument_file hperm hlimit hsizes hs.1 rfl hc (hs.2 m) []
  rw [List.append_nil] at hread ho
  exact ⟨((Reading.outcome_eq_complete_iff sizes _).mp ho).2, _, _, _, hread, hc, hsame⟩

section

variable (hperm : env.sort.Permutes) (hlimit : limit ≤ 2 ^ 31) (hsizes : Accepts sizes limit)

include hperm hlimit hsizes

end

theorem storable_flagTable : Snapshot.Storable .plain 2 ⟨[flagTable], .table 0⟩ := by
  refine ⟨portable_flagTable, fun fuel => ?_⟩
  by_cases hle : 3 ≤ fuel
  · rw [layout_of_complete insertionSort_permutes complete_flagTable hle, collect_flagTable]
    decide
  · obtain rfl | rfl | rfl : fuel = 0 ∨ fuel = 1 ∨ fuel = 2 := by omega
    all_goals decide

end LuaBinaryTable
