import LuaBinaryTable.Document.Doc
import LuaBinaryTable.Writer.WriteValue

/-!
# Emitting a document

`emit` appends the bytes of a document to the output and collects its strings in the pool.  It
does what `writeValue` does once the value is laid out, with the two tables of the pool taken out
of the heap.  `writeSlots` counts the Lua stack slots that `writeValue` uses on the way, and
`threadAfter` is the thread that it leaves: each hash table has its keys sorted, by a call that
grows the stack's buffer.
-/

namespace LuaBinaryTable

/-- The string table with its two Lua tables. -/
structure Pool where
  handle : LuaTable
  index2string : LuaTable
  size : Nat
  cacheSize : Nat

namespace Pool

def empty : Pool := { handle := .empty, index2string := .empty, size := 0, cacheSize := 0 }

/-- The string is not in the pool yet. -/
def IsNew (pool : Pool) (str : Bytes) : Prop := pool.handle.get (.string str) = .nil

instance (pool : Pool) (str : Bytes) : Decidable (pool.IsNew str) :=
  inferInstanceAs (Decidable (_ = _))

/-- The number of a string that is stored. -/
def indexOf (pool : Pool) (str : Bytes) : Nat :=
  match pool.handle.get (.string str) with
  | .number n => n.trunc.toNat
  | _ => 0

/-- The number of the string, which is new where it is not stored yet. -/
def store (pool : Pool) (str : Bytes) : Nat × Pool :=
  if pool.IsNew str then
    (pool.size + 1,
      { handle := pool.handle.set (.string str) (integer ↑(pool.size + 1))
        index2string := pool.index2string.set (integer ↑(pool.size + 1)) (.string str)
        size := pool.size + 1
        cacheSize := pool.cacheSize + str.length })
  else (pool.indexOf str, pool)

end Pool

/-- What emitting changes. -/
structure EmitState where
  pool : Pool
  stream : BinaryWriter

/-- Nothing emitted yet. -/
def EmitState.start : EmitState := { pool := .empty, stream := .empty }

namespace Thread

/-- The thread after the sort of keys, called at a height of the stack that is its peak or below. -/
def afterSort (env : Env) (height peak : Nat) (T : Thread) : Thread :=
  T.afterCall env (max peak height) height

/-- The thread after the line that tells of keys which cannot be sorted. -/
def reportUnsorted (T : Thread) : Thread :=
  T.print (bytesOf "Failed to sort table: " ++ T.tableLib.printed)

end Thread

namespace Doc

mutual

/-- The document is written behind the output, its strings stored in the pool. -/
def emit : Doc → EmitState → EmitState
  | nil, e => { e with stream := e.stream.writeType .tNil }
  | boolean b, e => { e with stream := e.stream.writeType (if b then .tTrue else .tFalse) }
  | integer i, e => { e with stream := writeInteger e.stream i }
  | double x, e => { e with stream := writeFloat e.stream x }
  | string s, e =>
    if s.length = 0 then { e with stream := e.stream.writeType .tString0 }
    else
      let (index, pool) := e.pool.store s
      { pool := pool, stream := writeLength e.stream .tString0 index }
  | emptyTable, e => { e with stream := e.stream.writeType .tTable0 }
  | array size items, e => emitItems items { e with stream := writeLength e.stream .tArray0 size }
  | table size items, e => emitItems items { e with stream := writeLength e.stream .tTable0 size }
  | stop _, e => e

/-- The values up to the first that breaks off. -/
def emitItems : List Doc → EmitState → EmitState
  | [], e => e
  | d :: ds, e => if d.Complete then emitItems ds (d.emit e) else d.emit e

end

mutual

/-- The greatest number of slots that `writeValue` uses above those in use at its call. -/
def writeSlots : Doc → EmitState → Nat
  | string s, e => if s.length = 0 then 0 else if e.pool.IsNew s then 2 else 1
  | emptyTable, _ => 1
  | array size items, e =>
    max 2 (1 + writeSlotsItems items { e with stream := writeLength e.stream .tArray0 size })
  | table size items, e =>
    max 5 (2 + writeSlotsItems items { e with stream := writeLength e.stream .tTable0 size })
  | _, _ => 0

def writeSlotsItems : List Doc → EmitState → Nat
  | [], _ => 0
  | d :: ds, e =>
    max (d.writeSlots e) (if d.Complete then writeSlotsItems ds (d.emit e) else 0)

end

mutual

/-- The thread that `writeValue` leaves, called with a stack of `height` values and the peak
`peak`. -/
def threadAfter (env : Env) : Doc → EmitState → Nat → Nat → Thread → Thread
  | array size items, e, height, peak, T =>
    threadAfterItems env items { e with stream := writeLength e.stream .tArray0 size } (height + 1)
      (max peak (height + 2)) T
  | table size items, e, height, peak, T =>
    threadAfterItems env items { e with stream := writeLength e.stream .tTable0 size } (height + 2)
      (max peak (height + 5)) (T.afterSort env (height + 5) peak)
  | stop .unsortable, _, _, _, T => T.reportUnsorted
  | _, _, _, _, T => T

def threadAfterItems (env : Env) : List Doc → EmitState → Nat → Nat → Thread → Thread
  | [], _, _, _, T => T
  | d :: ds, e, height, peak, T =>
    if d.Complete then
      threadAfterItems env ds (d.emit e) height (max peak (height + d.writeSlots e))
        (d.threadAfter env e height peak T)
    else d.threadAfter env e height peak T

end

/-- The thread that `writeBinaryTable` leaves: the string table has two slots under the value's. -/
def threadWritten (env : Env) (d : Doc) (height peak : Nat) (T : Thread) : Thread :=
  d.threadAfter env .start (height + 2) (max peak (height + 2)) T

/-- A whole file: header, pool and body. -/
def writePool (pool : Pool) : Nat → Nat → BinaryWriter → BinaryWriter
  | 0, _, stream => stream
  | n + 1, i, stream =>
    let str := match pool.index2string.get (LuaBinaryTable.integer i) with
      | .string str => str
      | _ => []
    writePool pool n (i + 1) ((stream.writeNumber stringLengthSize str.length).writeBytes str)

/-- The stream of a file: header, pool and body. -/
def stream (d : Doc) : BinaryWriter :=
  let e := d.emit .start
  let stream := BinaryWriter.empty.reserve (4 + e.pool.cacheSize + e.stream.size)
  let stream := stream.writeNumber 2 magicNumber
  let stream := stream.writeNumber 2 luabtVersion
  let stream := writePool e.pool e.pool.size 1
    (stream.writeNumber stringPoolLengthSize e.pool.size)
  stream.writeBytes e.stream.data

/-- The bytes of the whole file. -/
def file (d : Doc) : Bytes := d.stream.data

end Doc

end LuaBinaryTable
