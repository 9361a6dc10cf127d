import LuaBinaryTable.Binary64.Format
import LuaBinaryTable.BinaryWriter
import LuaBinaryTable.Writer.Keys

/-!
# `dumpValue` and `dumpTable`

The printer of `lua_binary_writer.cpp`, which writes a value as Lua source.  As in `writeValue`,
fuel bounds the depth of the recursion.
-/

namespace LuaBinaryTable

/-- A printer of the value at an index, at an indentation up to a greatest one. -/
abbrev ValueDumper :=
  Int → Int → Int → LuaState → BinaryWriter → Run LuaState (LuaState × BinaryWriter)

/-- The loop of `dumpValue` over the keys of a table, from number `i` on. -/
def dumpLoop (dumpValue : ValueDumper) (idx indent maxIndenty : Int) :
    Nat → Nat → LuaState → BinaryWriter → Run LuaState (LuaState × BinaryWriter)
  | 0, _, L, stream => return (L, stream)
  | n + 1, i, L, stream => do
    let stream :=
      if indent ≤ maxIndenty then (stream.writeChar 10).writeIndent indent else stream
    -- get key
    let L := L.rawgeti (-1) i
    let stream := stream.writeChar 91
    let (L, stream) ← dumpValue (-1) 1 0 L stream
    let stream := stream.writeString "] = "
    -- get value
    let L := L.rawget idx
    let (L, stream) ← dumpValue (-1) (indent + 1) maxIndenty L stream
    let stream := stream.writeChar 44
    dumpLoop dumpValue idx indent maxIndenty n (i + 1) (L.pop 1) stream

/-- The text of the value at an index.  Whether the keys could be sorted is not asked. -/
def dumpValue (env : Env) : Nat → ValueDumper
  | 0, _, _, _, _, _ => .diverges
  | fuel + 1, idx, indent, maxIndenty, L, stream =>
    match L.index2adr idx with
    | .nil => return (L, stream.writeString "nil")
    | .boolean b => return (L, stream.writeString (if b then "true" else "false"))
    | .string str => return (L, ((stream.writeChar 34).writeBytes str).writeChar 34)
    | .number v => return (L, stream.writeBytes v.formatG14)
    | .table _ => do
      let idx := if 0 < idx then idx else L.gettop + idx + 1
      let stream := stream.writeChar 123
      -- push key array on stack
      let (_, L) := getSortedTableKeys env L idx
      let length := L.objlen (-1)
      let (L, stream) ← dumpLoop (dumpValue env fuel) idx indent maxIndenty length 1 L stream
      -- pop key array
      let L := L.pop 1
      let stream :=
        if indent ≤ maxIndenty ∧ 0 < length then (stream.writeChar 10).writeIndent (indent - 1)
        else stream
      return (L, stream.writeChar 125)
    | v => return (L, stream.writeBytes (env.pointerText (env.topointer v)))

/-- The text and the state that is left. -/
def dumpTable (env : Env) (fuel : Nat) (L : LuaState) (idx : Int) (maxIndent : Int) :
    Run LuaState (Bytes × LuaState) := do
  let stream := BinaryWriter.empty.writeString "return "
  let (L, stream) ← dumpValue env fuel idx 1 maxIndent L stream
  return (stream.data, L)

end LuaBinaryTable
