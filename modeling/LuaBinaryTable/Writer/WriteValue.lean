import LuaBinaryTable.Writer.Keys
import LuaBinaryTable.Writer.StringTable

/-!
# `writeValue` and `writeBinaryTable`

The encoder of `lua_binary_writer.cpp`.  `writeTable` takes the function that writes an element as
a parameter, which `writeValue` ties to itself with one unit of fuel less, so fuel bounds the depth
of the recursion; the loops over the elements are structural.
-/

namespace LuaBinaryTable

/-- The narrowest tag for the integer, and its bytes.  0 and 1 have tags of their own. -/
def writeInteger (stream : BinaryWriter) (value : Int) : BinaryWriter :=
  if value = 0 then stream.writeType .tZero
  else if value = 1 then stream.writeType .tOne
  else if value < 0 then
    if -2 ^ 7 ≤ value then (stream.writeType .tInt8).writeNumber 1 value
    else if -2 ^ 15 ≤ value then (stream.writeType .tInt16).writeNumber 2 value
    else if -2 ^ 31 ≤ value then (stream.writeType .tInt32).writeNumber 4 value
    else (stream.writeType .tInt64).writeNumber 8 value
  else
    if value ≤ 2 ^ 7 - 1 then (stream.writeType .tInt8).writeNumber 1 value
    else if value ≤ 2 ^ 15 - 1 then (stream.writeType .tInt16).writeNumber 2 value
    else if value ≤ 2 ^ 31 - 1 then (stream.writeType .tInt32).writeNumber 4 value
    else (stream.writeType .tInt64).writeNumber 8 value

/-- All 64 bits of a number that is no integer. -/
def writeFloat (stream : BinaryWriter) (value : Binary64) : BinaryWriter :=
  (stream.writeType .tDouble).writeNumber 8 value.bits.toNat

/-- One of four tags in a row for a length: none, one, two or four bytes. -/
def writeLength (stream : BinaryWriter) (type0 : BinaryType) (length : Nat) : BinaryWriter :=
  if length = 0 then stream.writeType type0
  else if length ≤ 2 ^ 8 - 1 then (stream.writeType (type0.plus 1)).writeNumber 1 length
  else if length ≤ 2 ^ 16 - 1 then (stream.writeType (type0.plus 2)).writeNumber 2 length
  else (stream.writeType (type0.plus 3)).writeNumber 4 length

/-- The conversion `(int64_t)x` of an integral `x`. -/
def castInt64 (env : Env) (x : Binary64) : Int :=
  if Binary64.InInt64 x.trunc then x.trunc else (env.castOverflow x).toInt

/-- What the encoder changes: the Lua state, the string table and the output. -/
structure WriteState where
  L : LuaState
  strTable : StringTable
  stream : BinaryWriter

/-- A writer of the value at an index. -/
abbrev ValueWriter := Int → WriteState → Run LuaState (Bool × WriteState)

/-- The loop over the elements of an array, from index `i` on. -/
def writeArrayLoop (writeValue : ValueWriter) (index : Int) :
    Nat → Nat → WriteState → Run LuaState (Bool × WriteState)
  | 0, _, s => return (true, s)
  | n + 1, i, s => do
    let (ok, s) ← writeValue (-1) { s with L := s.L.rawgeti index i }
    if ok then writeArrayLoop writeValue index n (i + 1) { s with L := s.L.pop 1 }
    else return (false, s)

/-- The loop over the entries of a hash table, from the sorted key of number `i` on. -/
def writeHashLoop (writeValue : ValueWriter) (index : Int) :
    Nat → Nat → WriteState → Run LuaState (Bool × WriteState)
  | 0, _, s => return (true, s)
  | n + 1, i, s => do
    -- write key
    let (ok, s) ← writeValue (-1) { s with L := s.L.rawgeti (-1) i }
    if ok then
      -- write value
      let (ok, s) ← writeValue (-1) { s with L := s.L.rawget index }
      if ok then writeHashLoop writeValue index n (i + 1) { s with L := s.L.pop 1 }
      else return (false, s)
    else return (false, s)

/-- A table without entries, an array where the count of the entries is the length, or the entries
in the order of the sorted keys. -/
def writeTable (env : Env) (writeValue : ValueWriter) : ValueWriter := fun index s => do
  let index := if index < 0 then s.L.gettop + index + 1 else index
  let (length, L) := countTableLength s.L index
  let s := { s with L := L }
  if length = 0 then return (true, { s with stream := s.stream.writeType .tTable0 })
  else if length = s.L.objlen index then
    writeArrayLoop writeValue index length 1
      { s with stream := writeLength s.stream .tArray0 length }
  else
    let s := { s with stream := writeLength s.stream .tTable0 length }
    match getSortedTableKeys env s.L index with
    | (0, L) => return (false, { s with L := L })
    | (_, L) =>
      let (ok, s) ← writeHashLoop writeValue index length 1 { s with L := L }
      if ok then return (true, { s with L := s.L.pop 1 })
      else return (false, s)

/-- The value at an index.  Functions, userdata and threads are refused. -/
def writeValue (env : Env) : Nat → ValueWriter
  | 0, _, _ => .diverges
  | fuel + 1, index, s =>
    match s.L.index2adr index with
    | .nil => return (true, { s with stream := s.stream.writeType .tNil })
    | .boolean b =>
      return (true, { s with stream := s.stream.writeType (if b then .tTrue else .tFalse) })
    | .number v =>
      let nearV := v.round
      if v.equal nearV then
        return (true, { s with stream := writeInteger s.stream (castInt64 env nearV) })
      else return (true, { s with stream := writeFloat s.stream v })
    | .string str =>
      if str.length = 0 then return (true, { s with stream := s.stream.writeType .tString0 })
      else do
        let (strIndex, strTable, L) ← s.strTable.storeString s.L index
        return (true,
          { L := L, strTable := strTable, stream := writeLength s.stream .tString0 strIndex })
    | .table _ => writeTable env (writeValue env fuel) index s
    | .lightuserdata _ | .function _ | .userdata _ | .thread _ => return (false, s)

/-- The stream of `writeBinaryTable`, once the body is written, and the state without the string
table. -/
def fileStream (s : WriteState) : LuaState × BinaryWriter :=
  let stream := BinaryWriter.empty.reserve (4 + s.strTable.cacheSize + s.stream.size)
  let stream := stream.writeNumber 2 magicNumber
  let stream := stream.writeNumber 2 luabtVersion
  let (L, stream) := s.strTable.write s.L stream
  (s.strTable.destroy L, stream.writeBytes s.stream.data)

/-- The bytes of the document, or the null pointer, and the state that is left. -/
def writeBinaryTable (env : Env) (fuel : Nat) (L : LuaState) (idx : Int) :
    Run LuaState (Option Bytes × LuaState) := do
  let top := L.gettop
  let idx := if idx < 0 then top + idx + 1 else idx
  let (strTable, L) := StringTable.create L
  let (ok, s) ← writeValue env fuel idx ⟨L, strTable, .empty⟩
  if ok then
    let (L, stream) := fileStream s
    return (some stream.data, L)
  else
    return (none, (s.strTable.destroy s.L).settop top)

end LuaBinaryTable
