import LuaBinaryTable.Lua.Bisect
import LuaBinaryTable.Lua.Table

/-!
# The border of a table

`luaH_getn` of ltable.c, which `lua_objlen` returns for a table.  It looks at the values under
positive integers, and at how the table is divided into an array part and a hash part.  The same
entries can be divided in many ways, and where they leave gaps the result depends on it.
-/

namespace LuaBinaryTable

/-- How the entries of a table are divided. -/
structure Parts (t : LuaTable) where
  sizearray : Nat
  /-- `t->node == dummynode`. -/
  hashEmpty : Bool
  /-- The size of the array part is an `int`, and not the greatest one. -/
  sizearray_lt : sizearray + 1 < 2 ^ 31
  /-- Without a hash part all entries lie in the array part. -/
  entries_inside : hashEmpty = true →
    ∀ e ∈ t.entries, ∃ i : Nat, 0 < i ∧ i ≤ sizearray ∧ e.1 = integer i

namespace LuaTable

variable (t : LuaTable)

/-- There is no value in the slot of an index of the array part. -/
def arrayNil (i : Nat) : Bool := t.get (integer i) = .nil

/-- `luaH_getnum` finds no value under an unsigned integer, which is converted to an `int`. -/
def numNil (i : Nat) : Bool := t.get (integer ((i : Int).bmod (2 ^ 32))) = .nil

/-- `luaH_getn`. -/
def getn (parts : Parts t) (fuel : Nat) : Option Nat :=
  if 0 < parts.sizearray ∧ t.arrayNil parts.sizearray then
    bisect t.arrayNil fuel 0 parts.sizearray
  else if parts.hashEmpty then some parts.sizearray
  else unboundSearch t.numNil fuel parts.sizearray

end LuaTable

end LuaBinaryTable
