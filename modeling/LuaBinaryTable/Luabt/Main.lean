import LuaBinaryTable.Bytes.LittleEndian

/-!
# The command line of `luabt`

`main.cpp` up to the work on the files: the loop over the arguments, and the path of the output.
-/

namespace LuaBinaryTable

namespace Luabt

/-- The variables of `main` that the arguments set. -/
structure Options where
  srcFile : Bytes
  dstFile : Bytes
  compress : Bool

/-- What `main` comes to: a text on the console, or one of the two functions on its files. -/
inductive Command where
  | usage (message : Bytes)
  | compressFile (srcFile dstFile : Bytes)
  | decompressFile (srcFile dstFile : Bytes)
  deriving DecidableEq

/-- The loop over the arguments, from some argument on.  An error is what is printed before the
usage. -/
def scanArgs : List Bytes → Options → Except Bytes Options
  | [], o => .ok o
  | arg :: args, o =>
    if arg = bytesOf "-c" then scanArgs args { o with compress := true }
    else if arg = bytesOf "-d" then scanArgs args { o with compress := false }
    else if arg = bytesOf "-o" then
      match args with
      | [] => .error (bytesOf "on output file.\n")
      | output :: args => scanArgs args { o with dstFile := output }
    else if o.srcFile = [] then scanArgs args { o with srcFile := arg }
    else .error (bytesOf "invalid argument: " ++ arg ++ bytesOf "\n")

/-- `std::string::find_last_of`: the position of the last byte of the string that is among `chars`,
none for `npos`. -/
def findLastOf (chars : Bytes) : Bytes → Option Nat
  | [] => none
  | c :: s =>
    match findLastOf chars s with
    | some pos => some (pos + 1)
    | none => if chars.contains c then some 0 else none

/-- The output where none is given: the source with its extension replaced. -/
def defaultDstFile (srcFile : Bytes) : Bytes :=
  let dstFile :=
    match findLastOf (bytesOf "/\\.") srcFile with
    | some pos => if srcFile[pos]? = some 46 then srcFile.take pos else srcFile
    | none => srcFile
  dstFile ++ bytesOf ".dat"

/-- `main`, with the name of the program as its first argument. -/
def main (argv : List Bytes) : Command :=
  if argv.length < 2 then .usage []
  else
    match scanArgs argv.tail ⟨[], [], true⟩ with
    | .error message => .usage message
    | .ok o =>
      if o.srcFile = [] then .usage (bytesOf "no input file.\n")
      else
        let dstFile := if o.dstFile = [] then defaultDstFile o.srcFile else o.dstFile
        if o.compress then .compressFile o.srcFile dstFile else .decompressFile o.srcFile dstFile

/-- The source and the destination of a command that works on files. -/
def Command.files : Command → Option (Bytes × Bytes)
  | usage _ => none
  | compressFile srcFile dstFile => some (srcFile, dstFile)
  | decompressFile srcFile dstFile => some (srcFile, dstFile)

end Luabt

end LuaBinaryTable
