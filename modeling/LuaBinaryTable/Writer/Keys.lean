import LuaBinaryTable.Lua.Array
import LuaBinaryTable.Lua.Compare
import LuaBinaryTable.Lua.State
import LuaBinaryTable.Sorting.InsertionSort

/-!
# Counting and sorting the keys of a table

`countTableLength`, `sortCmp` and `getSortedTableKeys` of `lua_binary_writer.cpp`.

The standard `table.sort` is the parameter `Env.sort`.  Its comparator is `sortComp`, which calls
`sortCmp` as `sort_comp` of `ltablib.c` does and takes the truth of the value that the call
returns.
-/

namespace LuaBinaryTable

/-- What the library takes from its surroundings. -/
structure Env where
  /-- The standard `table.sort`. -/
  sort : Sorter LuaValue
  /-- The error value with which a failed `table.sort` ends; nothing reads it. -/
  sortError : LuaValue
  /-- `lua_topointer`. -/
  topointer : LuaValue → Nat
  /-- `sprintf` of a pointer with `%p`. -/
  pointerText : Nat → Bytes
  /-- The metamethod `__lt` of values other than numbers and strings, `none` where there is none. -/
  orderTM : LuaValue → LuaValue → Option Bool
  /-- The C++ conversion of a `double` out of the range of `int64_t`. -/
  castOverflow : Binary64 → Int64
  /-- The slots of the stack's buffer after the call of a C function, from those before it and the
  height of the stack with the arguments. -/
  regrow : Nat → Nat → Nat
  /-- `luaD_precall` sees to it that the function called has its free slots. -/
  le_regrow : ∀ slots height, height + luaMinStack ≤ regrow slots height

/-- An environment with an insertion sort and without metamethods, in which the cast that overflows
gives the least integer.  The 40 slots are those that `sort` of `ltablib.c` asks for. -/
def Env.plain : Env where
  sort := insertionSort
  sortError := .nil
  topointer
    | .table ref => ref
    | .function id | .userdata id | .thread id => id
    | .lightuserdata p => p
    | _ => 0
  pointerText p := bytesOf "0x" ++ bytesOf (String.ofList (Nat.toDigits 16 p))
  orderTM _ _ := none
  castOverflow _ := Int64.minValue
  regrow slots height := if height + 40 < slots then slots else max (2 * slots) (height + 40)
  le_regrow slots height := by
    unfold luaMinStack
    split <;> omega

/-- The thread after a call of a C function.  The buffer is made large enough for it, which does not
undo that the run has already written behind it. -/
def Thread.afterCall (env : Env) (T : Thread) (peak height : Nat) : Thread :=
  if peak ≤ T.slots then { T with slots := max T.slots (env.regrow T.slots height) } else T

/-- `printf` of a line. -/
def Thread.print (line : Bytes) (T : Thread) : Thread := { T with console := T.console ++ [line] }

/-- What `printf` writes for `%s` and the `lua_tostring` of a value, which is the null pointer where
the value is not a string. -/
def LuaValue.printed : LuaValue → Bytes
  | .string s => s
  | _ => bytesOf "(null)"

/-- The entries of the table at an index. -/
def LuaState.entriesAt (L : LuaState) (idx : Int) : Entries :=
  match L.index2adr idx with
  | .table ref => (L.heap[ref]?).elim [] (·.entries)
  | _ => []

/-- The loop of `countTableLength`. -/
def countLoop (idx : Int) : Nat → Nat → LuaState → Nat × LuaState
  | 0, n, L => (n, L)
  | fuel + 1, n, L =>
    match L.next idx with
    | (true, L) => countLoop idx fuel (n + 1) (L.pop 1)
    | (false, L) => (n, L)

/-- `lua_next` visits an entry once, so one call more than there are entries ends the loop. -/
def countTableLength (L : LuaState) (index : Int) : Nat × LuaState :=
  let idx := if 0 < index then index else L.gettop + index + 1
  countLoop idx ((L.entriesAt idx).length + 1) 0 L.pushnil

/-- The number of values `sortCmp` returns on the arguments `a` and `b`, or the error it raises.
The C++ expressions after `return` are 1 where they hold. -/
def sortCmp (env : Env) (a b : LuaValue) : Option Nat :=
  let t1 := a.type
  let t2 := b.type
  if t1 = .nil then some 1
  else if t2 = .nil then some 0
  else if t1 = t2 then
    if t1 = .table then some (if env.topointer a < env.topointer b then 1 else 0)
    else (luaLessThan env.orderTM a b).map fun less => if less then 1 else 0
  else
    match a, b with
    | .boolean x, .number y =>
      some (if (Binary64.ofInt (if x then 1 else 0)).less y then 1 else 0)
    | .boolean _, _ => some 1
    | .number x, .boolean y =>
      some (if x.less (Binary64.ofInt (if y then 1 else 0)) then 1 else 0)
    | .number _, _ => some 1
    | .string _, .boolean _ => some 0
    | .string _, .number _ => some 0
    | .string _, _ => some 1
    | _, _ => some 0

/-- `sort_comp`: the truth of the one value the call of the comparator leaves.  `sortCmp` pushes
nothing, so where it returns one value that is its last argument, and otherwise `nil`. -/
def sortComp (env : Env) (a b : LuaValue) : Option Bool :=
  (sortCmp env a b).map fun n => if n = 0 then false else b.truthy

/-- The elements `1..n` of an array. -/
def arrayContents (heap : List LuaTable) (arr : LuaValue) (n : Nat) : List LuaValue :=
  (List.range n).map fun i : Nat => rawField heap arr (integer ↑(i + 1))

/-- `lua_pcall(L, 2, 0, 0)` of `table.sort` with an array and a comparator: 0, or an error code
with the error value on the stack. -/
def pcallSort (env : Env) (L : LuaState) : Nat × LuaState :=
  let thread := L.thread.afterCall env L.peak L.gettop
  match L.stack with
  | _ :: arr :: _ :: s =>
    match (env.sort (arrayContents L.heap arr (L.objlen (-2)))).run (sortComp env) with
    | .ok contents =>
      (0, { L with
        stack := s
        heap := updateTable L.heap (setContents · 1 contents) arr
        thread := thread })
    | .error contents =>
      (2, { L with
        stack := env.sortError :: s
        heap := updateTable L.heap (setContents · 1 contents) arr
        thread := thread })
  | _ => (2, L)

/-- The loop of `getSortedTableKeys`. -/
def keysLoop (index : Int) : Nat → Nat → LuaState → LuaState
  | 0, _, L => L
  | fuel + 1, n, L =>
    match L.next index with
    | (true, L) =>
      let L := L.pop 1
      let L := L.pushvalue (-1)
      keysLoop index fuel (n + 1) (L.rawseti (-3) (n + 1))
    | (false, L) => L

/-- The keys of the table in a new array on the stack, sorted by `table.sort`.  Where that fails a
line is printed, and the array and the library table stay on the stack. -/
def getSortedTableKeys (env : Env) (L : LuaState) (index : Int) : Nat × LuaState :=
  -- get table keys
  let L := L.newtable
  let L := keysLoop index ((L.entriesAt index).length + 1) 0 L.pushnil
  -- sort keys
  let L := L.getglobalTable
  let L := L.getfield (-1) "sort"
  let L := L.pushvalue (-3)
  let L := L.push (.function 0)
  match pcallSort env L with
  | (0, L) => (1, L.pop 1)
  | (_, L) =>
    -- the comment there says that this pops the library table, but it pops the error message
    let L := L.pop 1
    let line := bytesOf "Failed to sort table: " ++ (L.index2adr (-1)).printed
    (0, { L with thread := L.thread.print line })

end LuaBinaryTable
