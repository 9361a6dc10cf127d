import LuaBinaryTable.BinaryWriter
import LuaBinaryTable.Lua.State

/-!
# The writer's `StringTable`

Two Lua tables on the stack, at the absolute indices `handle` and `index2string`: from each string
stored to its number, and from the number back to the string.
-/

namespace LuaBinaryTable

/-- The slots of the two tables, the number of strings, and the sum of their lengths. -/
structure StringTable where
  handle : Nat
  index2string : Nat
  size : Nat
  cacheSize : Nat

namespace StringTable

/-- The constructor. -/
def create (L : LuaState) : StringTable × LuaState :=
  let L := L.newtable
  let handle := L.gettop
  let L := L.newtable
  ({ handle := handle, index2string := L.gettop, size := 0, cacheSize := 0 }, L)

/-- Both tables are removed, the upper one first. -/
def destroy (st : StringTable) (L : LuaState) : LuaState :=
  (L.remove st.index2string).remove st.handle

/-- The number of the string at `idx`, a new one where it is not stored yet.  A Lua table has fewer
than `2^31` entries, so the conversion of `size_` to `int` keeps its value. -/
def storeString (st : StringTable) (L : LuaState) (idx : Int) :
    Run LuaState (Nat × StringTable × LuaState) := do
  let L := L.pushvalue idx
  let L := L.rawget st.handle
  if L.index2adr (-1) = .nil then
    let L := L.pop 1
    let st := { st with size := st.size + 1, cacheSize := st.cacheSize + L.objlen idx }
    let L := L.pushvalue idx
    let L := L.pushinteger st.size
    let L ← L.rawset st.handle
    let L := L.pushvalue idx
    let L := L.rawseti st.index2string st.size
    return (st.size, st, L)
  else
    let index := (L.tointeger (-1)).toNat
    return (index, st, L.pop 1)

/-- The loop of `write`, from the string of number `i` on. -/
def writeLoop (st : StringTable) : Nat → Nat → LuaState → BinaryWriter → LuaState × BinaryWriter
  | 0, _, L, stream => (L, stream)
  | n + 1, i, L, stream =>
    let L := L.rawgeti st.index2string i
    let str := L.tolstring (-1)
    let stream := stream.writeNumber stringLengthSize str.length
    let stream := stream.writeBytes str
    st.writeLoop n (i + 1) (L.pop 1) stream

/-- The number of strings, and each with its length in the order of the numbers. -/
def write (st : StringTable) (L : LuaState) (stream : BinaryWriter) : LuaState × BinaryWriter :=
  st.writeLoop st.size 1 L (stream.writeNumber stringPoolLengthSize st.size)

end StringTable

end LuaBinaryTable
