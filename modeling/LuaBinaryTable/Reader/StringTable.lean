import LuaBinaryTable.BinaryReader
import LuaBinaryTable.Lua.State

/-!
# The reader's `StringTable`

The pool of a document, decoded into a Lua table at the absolute index `handle`.
-/

namespace LuaBinaryTable

/-- The conversion of an unsigned integer to `int`. -/
def toInt32 (n : Int) : Int := n.bmod (2 ^ 32)

/-- What a run of the decoder has done, for the statements about runs; it computes nothing. -/
inductive ParseEvent where
  /-- `parserValue` was called with the cursor at a position. -/
  | value (p : Nat)
  /-- A round of the loop over the pool was entered. -/
  | poolRecord (p : Nat)
  /-- `lua_createtable` was called for a count, with the size that its conversion to `int` gives,
  the cursor at a position. -/
  | createtable (count : Nat) (size : Int) (p : Nat)
  /-- `getString` was called with an index and pushed a value, or none. -/
  | string (strIndex : Nat) (pushed : Option LuaValue)
  deriving DecidableEq

/-- What the decoder changes: the Lua state and the cursor; `trace` is what it has done, the last
event first. -/
structure ParseState where
  L : LuaState
  reader : BinaryReader
  trace : List ParseEvent

namespace ParseState

/-- The event comes to the front of the trace. -/
def log (e : ParseEvent) (s : ParseState) : ParseState := { s with trace := e :: s.trace }

/-- The state after a call of `readNumber`, with the bytes read. -/
def readNumber (w : Nat) (s : ParseState) : Bytes × ParseState :=
  let (b, reader) := s.reader.readNumber w
  (b, { s with reader := reader })

/-- The call of a function of the Lua state that may raise an error. -/
def callLua (s : ParseState) (f : LuaState → Run LuaState LuaState) : Run ParseState ParseState :=
  match f s.L with
  | .returns L => .returns { s with L := L }
  | .raises L => .raises { s with L := L }
  | .diverges => .diverges

end ParseState

namespace Reader

/-- The slot of the pool's table, and the number of strings that the header declares. -/
structure StringTable where
  handle : Nat
  size : Nat

namespace StringTable

/-- The table is removed from the stack; the parser calls it on success only. -/
def destroy (st : StringTable) (L : LuaState) : LuaState :=
  if st.handle ≠ 0 then L.remove st.handle else L

/-- The string of a number is pushed.  The check lets the number 0 through, which the pool has no
string for. -/
def getString (st : StringTable) (s : ParseState) (strIndex : Nat) : Bool × ParseState :=
  if strIndex ≤ st.size then
    let L := s.L.rawgeti st.handle (toInt32 strIndex)
    (true, { s with L := L }.log (.string strIndex (some (L.index2adr (-1)))))
  else (false, s.log (.string strIndex none))

/-- The loop of `parse`, from the string of number `i + 1` on. -/
def parseLoop : Nat → Nat → ParseState → Bool × ParseState
  | 0, _, s => (true, s)
  | n + 1, i, s =>
    let s := s.log (.poolRecord s.reader.p)
    let (b, s) := s.readNumber stringLengthSize
    let length := leNat b
    if length = 0 then (false, s)
    else
      match s.reader.readBytes length with
      | (none, reader) => (false, { s with reader := reader })
      | (some str, reader) =>
        let L := s.L.pushlstring str
        let L := L.rawseti (-2) (toInt32 (toInt32 i + 1))
        parseLoop n (i + 1) { s with L := L, reader := reader }

/-- The pool: a new table on the stack, and the strings in it by their numbers from 1 on. -/
def parse (sizes : TableSizes) (s : ParseState) :
    Run ParseState (Bool × StringTable × ParseState) := do
  let (b, s) := s.readNumber stringPoolLengthSize
  let size := leNat b
  let s := s.log (.createtable size (toInt32 size) s.reader.p)
  let s ← s.callLua (·.createtable sizes (toInt32 size) 0)
  let st : StringTable := { handle := s.L.gettop, size := size }
  let (ok, s) := parseLoop size 0 s
  return (ok, st, s)

end StringTable

end Reader

end LuaBinaryTable
