import LuaBinaryTable.BinaryTable
import LuaBinaryTable.Lua.Arguments

/-!
# The Lua functions of the library

The six functions that `luaopen_BinaryTable` registers, with the checks of their arguments, on the
Lua state and the files.  `call` is a call of one of them by a Lua program, which sees the tables
and the files before and after it.
-/

namespace LuaBinaryTable

/-- What the functions take from their surroundings. -/
structure Host where
  env : Env
  sizes : TableSizes
  /-- `luaO_str2d`. -/
  str2d : Bytes → Option Binary64
  site : CallSite
  /-- The paths that `fopen` opens for writing. -/
  writable : Bytes → Bool

/-- The path that `fopen` takes of a Lua string: it ends before the first zero byte. -/
def cString (s : Bytes) : Bytes := s.takeWhile (· ≠ 0)

/-- The files with one of them written.  Different paths are different files. -/
def Files.write (files : Files) (path data : Bytes) : Files := fun p =>
  if p = path then some data else files p

/-- What a run of a function works on. -/
structure FileState where
  L : LuaState
  files : Files

namespace FileState

variable {α : Type}

/-- A part of the run that leaves the files alone. -/
def callLua (s : FileState) (f : LuaState → Run LuaState (α × LuaState)) :
    Run FileState (α × FileState) :=
  match f s.L with
  | .returns (a, L) => .returns (a, { s with L := L })
  | .raises L => .raises { s with L := L }
  | .diverges => .diverges

theorem callLua_returns {s : FileState} {f : LuaState → Run LuaState (α × LuaState)} {a : α}
    {L : LuaState} (h : f s.L = .returns (a, L)) :
    s.callLua f = .returns (a, { s with L := L }) := by
  rw [callLua, h]

theorem callLua_raises {s : FileState} {f : LuaState → Run LuaState (α × LuaState)} {L : LuaState}
    (h : f s.L = .raises L) : s.callLua f = .raises { s with L := L } := by
  rw [callLua, h]

/-- A function that decodes. -/
def callParse (s : FileState) (f : LuaState → Run ParseState (Nat × LuaState)) :
    Run FileState (Nat × FileState) :=
  match f s.L with
  | .returns (n, L) => .returns (n, { s with L := L })
  | .raises p => .raises { s with L := p.L }
  | .diverges => .diverges

end FileState

/-- The files as `fopen` finds them by Lua strings. -/
def Files.byName (files : Files) : Files := fun name => files (cString name)

/-- A run with two results, the second one a message. -/
def failWithMessage (s : FileState) (v : LuaValue) (message : Bytes) : Nat × FileState :=
  (2, { s with L := (s.L.push v).pushlstring message })

section

variable (host : Host) (fuel : Nat) (s : FileState)

/-- `LuaBinaryTable_parse`, with any arguments. -/
def luaBinaryTableParseAny : Run FileState (Nat × FileState) := do
  let (_, s) ← s.callLua (·.checklstring host.site 1)
  s.callParse (luaBinaryTableParse host.sizes)

/-- `LuaBinaryTable_write`: no result where the encoder fails. -/
def luaBinaryTableWrite : Run FileState (Nat × FileState) := do
  if s.L.gettop ≠ 1 then
    s.callLua (·.error host.site
      (bytesOf "1 argument expected, but " ++ bytesOf (toString s.L.gettop) ++ bytesOf " was given"))
  else
    let (ret, s) ← s.callLua (writeBinaryTable host.env fuel · 1)
    match ret with
    | none => return (0, s)
    | some data => return (1, { s with L := s.L.pushlstring data })

/-- `LuaBinaryTable_parseFromFile`, with any arguments. -/
def luaBinaryTableParseFromFileAny : Run FileState (Nat × FileState) := do
  let (_, s) ← s.callLua (·.checklstring host.site 1)
  s.callParse (luaBinaryTableParseFromFile host.sizes s.files.byName)

/-- `LuaBinaryTable_writeToFile`: the value is encoded before the file is opened, so a failed
encoding leaves the file alone. -/
def luaBinaryTableWriteToFile : Run FileState (Nat × FileState) := do
  let (filename, s) ← s.callLua (·.checklstring host.site 1)
  let (ret, s) ← s.callLua (writeBinaryTable host.env fuel · 2)
  match ret with
  | none => return failWithMessage s (.boolean false) (bytesOf "Failed to serialize data.")
  | some data =>
    if host.writable (cString filename) then
      return (1, { L := s.L.pushboolean true, files := s.files.write (cString filename) data })
    else return failWithMessage s (.boolean false) (bytesOf "Failed open input file.")

/-- The greatest indentation: 99, or an argument. -/
def maxIndentArg (narg : Nat) : Run FileState (Int × FileState) :=
  if narg ≤ s.L.gettop then
    s.callLua fun L => do
      let i ← L.checkinteger (castInt64 host.env) host.str2d host.site narg
      return (toInt32 i, L)
  else return (99, s)

/-- `LuaBinaryTable_dump`, which accepts more arguments than it reads. -/
def luaBinaryTableDump : Run FileState (Nat × FileState) := do
  if s.L.gettop < 1 then
    s.callLua (·.error host.site (bytesOf "expected 1 argument, but 0 was givent."))
  else
    let (maxIndent, s) ← maxIndentArg host s 2
    let (text, s) ← s.callLua (dumpTable host.env fuel · 1 maxIndent)
    return (1, { s with L := s.L.pushlstring text })

/-- `LuaBinaryTable_dumpToFile`: the value is the first argument, the name the second, the other
way round than in `writeToFile`. -/
def luaBinaryTableDumpToFile : Run FileState (Nat × FileState) := do
  let (filename, s) ← s.callLua (·.checklstring host.site 2)
  let (maxIndent, s) ← maxIndentArg host s 3
  let (text, s) ← s.callLua (dumpTable host.env fuel · 1 maxIndent)
  if host.writable (cString filename) then
    return (1, { L := s.L.pushboolean true, files := s.files.write (cString filename) text })
  else return failWithMessage s (.boolean false) (bytesOf "Failed open input file.")

end

/-- The functions of the library. -/
inductive LibFunction where
  | parse | write | parseFromFile | writeToFile | dump | dumpToFile
  deriving DecidableEq

/-- The names that `luaopen_BinaryTable` registers. -/
def binaryTableLib : List (Bytes × LibFunction) :=
  [(bytesOf "parse", .parse),
   (bytesOf "write", .write),
   (bytesOf "parseFromFile", .parseFromFile),
   (bytesOf "writeToFile", .writeToFile),
   (bytesOf "dump", .dump),
   (bytesOf "dumpToFile", .dumpToFile)]

/-- The C function under a name of the library. -/
def LibFunction.run (host : Host) (fuel : Nat) :
    LibFunction → FileState → Run FileState (Nat × FileState)
  | parse => luaBinaryTableParseAny host
  | write => luaBinaryTableWrite host fuel
  | parseFromFile => luaBinaryTableParseFromFileAny host
  | writeToFile => luaBinaryTableWriteToFile host fuel
  | dump => luaBinaryTableDump host fuel
  | dumpToFile => luaBinaryTableDumpToFile host fuel

/-! ### Calls -/

/-- What a Lua program and the library share between calls. -/
structure World where
  heap : List LuaTable
  thread : Thread
  files : Files

/-- The state in which a function starts. -/
def World.enter (w : World) (args : List LuaValue) : FileState :=
  ⟨.entry args.reverse w.heap w.thread, w.files⟩

/-- The world that a function leaves. -/
def FileState.world (s : FileState) : World := ⟨s.L.heap, s.L.thread, s.files⟩

/-- The text of the argument of number `i + 1`. -/
def argText (args : List LuaValue) (i : Nat) : Option Bytes :=
  LuaValue.text? (args[i]?.getD .nil)

/-- The results of a function and the world after it, wherever the run has written. -/
def invoke (host : Host) (fuel : Nat) (f : LibFunction) (args : List LuaValue) (w : World) :
    Run FileState (List LuaValue × World) := do
  let (n, s) ← f.run host fuel (w.enter args)
  return (results n s.L, s.world)

/-- A call: the results and the world after it.  A run that has written behind the buffer of the
stack may have destroyed anything, so such a call is given no outcome. -/
def call (host : Host) (fuel : Nat) (f : LibFunction) (args : List LuaValue) (w : World) :
    Run FileState (List LuaValue × World) :=
  match f.run host fuel (w.enter args) with
  | .returns (n, s) => if s.L.Overrun then .diverges else .returns (results n s.L, s.world)
  | .raises s => if s.L.Overrun then .diverges else .raises s
  | .diverges => .diverges

section

variable {host : Host} {fuel : Nat} {f : LibFunction} {args : List LuaValue} {w : World}

theorem call_of_returns {n : Nat} {s : FileState}
    (h : f.run host fuel (w.enter args) = .returns (n, s)) :
    call host fuel f args w =
      if s.L.Overrun then .diverges else .returns (results n s.L, s.world) := by
  rw [call, h]

theorem call_of_raises {s : FileState} (h : f.run host fuel (w.enter args) = .raises s) :
    call host fuel f args w = if s.L.Overrun then .diverges else .raises s := by
  rw [call, h]

end

end LuaBinaryTable
