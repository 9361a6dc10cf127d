import LuaBinaryTable.BinaryTable.Functions
import LuaBinaryTable.Document.Portable
import Mathlib.Logic.Function.Basic

/-!
# Programs that use the library

A program takes steps: it calls a function of the library, or it works on its own, where it may
change the tables and some files in any way.  Over that, `Saved` says what the files are for: under
each path the value that was stored last, as it was at that time.
-/

namespace LuaBinaryTable

/-- A value as it was at some time. -/
structure Snapshot where
  heap : List LuaTable
  value : LuaValue

/-- Nothing of the value is lost in the format. -/
def Snapshot.Storable (env : Env) (limit : Nat) (snap : Snapshot) : Prop :=
  Portable limit snap.heap snap.value ∧
    ∀ fuel, ((layout env snap.heap fuel snap.value).collect []).length < limit

end LuaBinaryTable
