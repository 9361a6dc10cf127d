import LuaBinaryTable.BinaryTable.Functions
import LuaBinaryTable.Luabt.Main
import LuaBinaryTable.Source.Size

/-!
# The work of `luabt` on its files

The rest of `main.cpp`: a run of the tool on the files, which ends with a text on the console and
the files as it leaves them.  The script that `compressFile` runs is a parameter, and so are the
texts of the errors that Lua raises.  A path names a regular file or none: a directory, which
`fopen` opens without complaint, is left out.
-/

namespace LuaBinaryTable

namespace Luabt

/-- What the tool takes from its surroundings. -/
structure Tool where
  host : Host
  /-- The tables that `luaL_openlibs` makes, and the thread with the one of `table`. -/
  heap : List LuaTable
  thread : Thread
  /-- The text of the error with which a function of the library has ended. -/
  errorText : FileState → Bytes
  /-- `luaL_loadfile` accepts the text of a script. -/
  loads : Bytes → Bool
  /-- A call of a script on the name of its file.  Where it raises an error, the text of it is
  given. -/
  runs : Bytes → Bytes → World → Run (Bytes × World) (LuaValue × World)

/-- The interpreter evaluates the chunks `return exp` that it has room for.  The buffer of the stack
may grow for that. -/
def Tool.Evaluates (tool : Tool) : Prop :=
  ∀ text tokens e, Token.lex text = some tokens → parseChunk tokens = some e → e.Fits →
    tool.loads text = true ∧ ∀ name w, ∃ slots, w.thread.slots ≤ slots ∧
      tool.runs text name w = .returns ((e.eval w.heap).1,
        { w with heap := (e.eval w.heap).2, thread := { w.thread with slots := slots } })

/-- The world in which the tool starts. -/
def Tool.start (tool : Tool) (files : Files) : World :=
  ⟨tool.heap, { tool.thread with console := [] }, files⟩

/-- The world as a function finds it that is called above `below` values of the caller's stack. -/
def callee (below : Nat) (w : World) : World :=
  { w with thread := { w.thread with slots := w.thread.slots - below } }

/-- The world of the callee as its caller finds it. -/
def caller (below : Nat) (w : World) : World :=
  { w with thread := { w.thread with slots := w.thread.slots + below } }

variable (tool : Tool) (fuel : Nat)

/-- The end of a call that `lua_pcall` makes. -/
def Tool.caught (below : Nat) : Run FileState (List LuaValue × World) →
    Run (Bytes × World) (List LuaValue × World)
  | .returns (vs, w) => .returns (vs, caller below w)
  | .raises s => .raises (tool.errorText s, caller below s.world)
  | .diverges => .diverges

/-- `lua_pcall` of a field of the table `BinaryTable`, which lies with the values under it in the
first `below` slots. -/
def Tool.pcall (below : Nat) (name : Bytes) (args : List LuaValue) (w : World) :
    Run (Bytes × World) (List LuaValue × World) :=
  match binaryTableLib.lookup name with
  | none => .raises (bytesOf "attempt to call a nil value", w)
  | some f => tool.caught below (call tool.host fuel f args (callee below w))

/-- The text on the console after a call that has failed. -/
def executeFailed (what srcFile error : Bytes) : Bytes :=
  bytesOf "Failed to excute " ++ what ++ bytesOf ":" ++ srcFile ++ bytesOf "\n" ++
    bytesOf "error:" ++ error ++ bytesOf "\n"

/-- The work on one pair of files.  An error that nothing catches ends the tool, and a run that
overruns the buffer of the stack is given no outcome. -/
def compressFile (srcFile dstFile : Bytes) (w : World) : Run World (Bytes × World) :=
  match w.files (cString srcFile) with
  | none => .returns (bytesOf "Failded to load lua file:" ++ srcFile ++ bytesOf "\n", w)
  | some text =>
    if tool.loads text then
      match tool.runs text srcFile w with
      | .raises (error, w) => .returns (executeFailed (bytesOf "lua file") srcFile error, w)
      | .diverges => .diverges
      | .returns (v, w) =>
        match writeBinaryTable tool.host.env fuel (.entry [v] w.heap w.thread) (-1) with
        | .raises L =>
          if L.Overrun then .diverges else .raises { w with heap := L.heap, thread := L.thread }
        | .diverges => .diverges
        | .returns (none, L) =>
          if L.Overrun then .diverges
          else .returns (bytesOf "Failed to compress file:" ++ srcFile ++ bytesOf "\n",
            { w with heap := L.heap, thread := L.thread })
        | .returns (some data, L) =>
          if L.Overrun then .diverges
          else if tool.host.writable (cString dstFile) then
            .returns ([], ⟨L.heap, L.thread, w.files.write (cString dstFile) data⟩)
          else
            .returns (bytesOf "Failed to create file:" ++ dstFile ++ bytesOf "\n",
              { w with heap := L.heap, thread := L.thread })
    else .returns (bytesOf "Failded to load lua file:" ++ srcFile ++ bytesOf "\n", w)

/-- Of the results of `parseFromFile` the first is handed to `dumpToFile`, and those of `dumpToFile`
are dropped.  Below the functions lies the table `BinaryTable`, and `dumpToFile` is pushed first. -/
def decompressFile (srcFile dstFile : Bytes) (w : World) : Run World (Bytes × World) :=
  match tool.pcall fuel 3 (bytesOf "parseFromFile") [.string srcFile] w with
  | .raises (error, w) =>
    .returns (executeFailed (bytesOf "function 'parseFromFile'") srcFile error, w)
  | .diverges => .diverges
  | .returns (vs, w) =>
    match tool.pcall fuel 2 (bytesOf "dumpToFile") [vs.headD .nil, .string dstFile] w with
    | .raises (error, w) =>
      .returns (executeFailed (bytesOf "function 'dumpToFile'") srcFile error, w)
    | .diverges => .diverges
    | .returns (_, w) => .returns ([], w)

/-- What the tool prints where it is given no file or an option that it does not know. -/
def usageText : Bytes :=
  bytesOf "USAGE:\n" ++
  bytesOf "LuaBinaryTable [-c][-d][-o output] file\n" ++
  bytesOf "-c         compress mode\n" ++
  bytesOf "-d         decompress mode\n" ++
  bytesOf "-o output\n" ++
  bytesOf "           output file name\n"

/-- The text of some lines on the console. -/
def consoleText (lines : List Bytes) : Bytes := lines.flatMap (· ++ bytesOf "\n")

/-- What a run leaves of its world: the Lua state is closed.  What the library has printed stands
on the console before the words of the tool. -/
def closed : Run World (Bytes × World) → Run Files (Bytes × Files)
  | .returns (words, w) => .returns (consoleText w.thread.console ++ words, w.files)
  | .raises w => .raises w.files
  | .diverges => .diverges

/-- A run of the tool, from the files before it to those after it. -/
def Tool.run (argv : List Bytes) (files : Files) : Run Files (Bytes × Files) :=
  match main argv with
  | .usage message => .returns (message ++ usageText ++ bytesOf "\n", files)
  | .compressFile srcFile dstFile =>
    closed (compressFile tool fuel srcFile dstFile (tool.start files))
  | .decompressFile srcFile dstFile =>
    closed (decompressFile tool fuel srcFile dstFile (tool.start files))

section

variable {argv : List Bytes} {srcFile dstFile : Bytes} (files : Files)

theorem Tool.run_compressFile (hmain : main argv = .compressFile srcFile dstFile) :
    tool.run fuel argv files =
      closed (compressFile tool fuel srcFile dstFile (tool.start files)) := by
  rw [Tool.run, hmain]

theorem Tool.run_decompressFile (hmain : main argv = .decompressFile srcFile dstFile) :
    tool.run fuel argv files =
      closed (decompressFile tool fuel srcFile dstFile (tool.start files)) := by
  rw [Tool.run, hmain]

end

end Luabt

end LuaBinaryTable
