import LuaBinaryTable.Reader.ParserValue
import LuaBinaryTable.Writer.DumpValue
import LuaBinaryTable.Writer.WriteValue

/-!
# The Lua functions `BinaryTable.parse` and `BinaryTable.parseFromFile`

`lua_binary_table.cpp`.  A C function called from Lua starts with its arguments on an empty stack
and hands the top values of its stack to its caller, as many as it returns.
-/

namespace LuaBinaryTable

open Reader

/-- The files that can be read, with their contents. -/
abbrev Files := Bytes → Option Bytes

/-- The values that a C function hands to its caller, the first result first. -/
def results (n : Nat) (L : LuaState) : List LuaValue := (L.stack.take n).reverse

/-- `LuaBinaryTable_parse`, with a string as its argument. -/
def luaBinaryTableParse (sizes : TableSizes) (L : LuaState) : Run ParseState (Nat × LuaState) := do
  let str := L.tolstring 1
  let (n, s) ← parseBinaryTable sizes L str
  return (n, s.L)

/-- `LuaBinaryTable_parseFromFile`, with a string as its argument. -/
def luaBinaryTableParseFromFile (sizes : TableSizes) (files : Files) (L : LuaState) :
    Run ParseState (Nat × LuaState) := do
  let filename := L.tolstring 1
  match files filename with
  | none => return (2, L.pushnil.pushlstring (bytesOf "Failed open input file."))
  | some buffer =>
    let (ret, s) ← parseBinaryTable sizes L buffer
    if ret = 0 then return (2, s.L.pushnil.pushlstring (bytesOf "Failed parse data"))
    else return (1, s.L)

end LuaBinaryTable
