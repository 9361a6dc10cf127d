import LuaBinaryTable.Reader.StringTable

/-!
# `parserValue` and `parseBinaryTable`

The decoder of `lua_binary_reader.cpp`.  `parseArray` and `parseTable` take the function that
decodes an element as a parameter, which `parserValue` ties to itself with one unit of fuel less,
so fuel bounds the depth of nesting; the loops over the elements are structural.
`parseBinaryTable` runs with one unit more than there are bytes, which always suffices: a nested
value lies behind a tag byte.
-/

namespace LuaBinaryTable

namespace Reader

/-- A decoder of the value at the cursor. -/
abbrev ValueParser := ParseState → Run ParseState (Bool × ParseState)

/-- The functions `_parseNil`, …, `_parseZero`, `_parseString0` and `_parseTable0`, which push a
value that does not depend on the input. -/
def parsePush (push : LuaState → LuaState) : ValueParser := fun s =>
  return (true, { s with L := push s.L })

/-- `_parseEof`, which refuses every value: `T_EOF` is never written. -/
def parseEof : ValueParser := fun s => return (false, s)
def parseNil : ValueParser := parsePush (·.pushnil)
def parseTrue : ValueParser := parsePush (·.pushboolean true)
def parseFalse : ValueParser := parsePush (·.pushboolean false)
def parseOne : ValueParser := parsePush (·.pushnumber (Binary64.ofInt 1))
def parseZero : ValueParser := parsePush (·.pushnumber (Binary64.ofInt 0))
def parseString0 : ValueParser := parsePush (·.pushlstring [])
def parseTable0 : ValueParser := parsePush (·.newtable)

/-- `_parseInteger` of a `w`-byte signed integer. -/
def parseInteger (w : Nat) : ValueParser := fun s =>
  let (b, s) := s.readNumber w
  return (true, { s with L := s.L.pushinteger (leInt b) })

/-- `_parseNumber<float>`. -/
def parseFloat : ValueParser := fun s =>
  let (b, s) := s.readNumber 4
  return (true, { s with L := s.L.pushnumber (Binary64.ofBinary32 (UInt32.ofNat (leNat b))) })

/-- `_parseNumber<double>`. -/
def parseDouble : ValueParser := fun s =>
  let (b, s) := s.readNumber 8
  return (true, { s with L := s.L.pushnumber ⟨UInt64.ofNat (leNat b)⟩ })

/-- `_parseString` of a `w`-byte index. -/
def parseString (w : Nat) (strTable : StringTable) : ValueParser := fun s =>
  let (b, s) := s.readNumber w
  return strTable.getString s (leNat b)

/-- The loop of `_parseArray`, from the element of number `i + 1` on. -/
def parseArrayLoop (parserValue : ValueParser) : Nat → Nat → ValueParser
  | 0, _, s => return (true, s)
  | n + 1, i, s => do
    let (ok, s) ← parserValue s
    if ok then
      parseArrayLoop parserValue n (i + 1)
        { s with L := s.L.rawseti (-2) (toInt32 (toInt32 i + 1)) }
    else return (false, s)

/-- `_parseArray` of a `w`-byte count. -/
def parseArray (sizes : TableSizes) (w : Nat) (parserValue : ValueParser) : ValueParser :=
  fun s => do
    let (b, s) := s.readNumber w
    let size := leNat b
    let s := s.log (.createtable size (toInt32 size) s.reader.p)
    let s ← s.callLua (·.createtable sizes (toInt32 size) 0)
    parseArrayLoop parserValue size 0 s

/-- The loop of `_parseTable`. -/
def parseTableLoop (parserValue : ValueParser) : Nat → ValueParser
  | 0, s => return (true, s)
  | n + 1, s => do
    let (ok, s) ← parserValue s
    if ok then
      let (ok, s) ← parserValue s
      if ok then
        let s ← s.callLua (·.rawset (-3))
        parseTableLoop parserValue n s
      else return (false, s)
    else return (false, s)

/-- `_parseTable` of a `w`-byte count. -/
def parseTable (sizes : TableSizes) (w : Nat) (parserValue : ValueParser) : ValueParser :=
  fun s => do
    let (b, s) := s.readNumber w
    let size := leNat b
    let s := s.log (.createtable size (toInt32 size) s.reader.p)
    let s ← s.callLua (·.createtable sizes 0 (toInt32 size))
    parseTableLoop parserValue size s

/-- The table `parsers`. -/
def parsers (sizes : TableSizes) (strTable : StringTable) (parserValue : ValueParser) :
    BinaryType → ValueParser
  | .tEof => parseEof
  | .tNil => parseNil
  | .tTrue => parseTrue
  | .tFalse => parseFalse
  | .tZero => parseZero
  | .tOne => parseOne
  | .tInt8 => parseInteger 1
  | .tInt16 => parseInteger 2
  | .tInt32 => parseInteger 4
  | .tInt64 => parseInteger 8
  | .tFloat => parseFloat
  | .tDouble => parseDouble
  | .tString0 => parseString0
  | .tString8 => parseString 1 strTable
  | .tString16 => parseString 2 strTable
  | .tString32 => parseString 4 strTable
  | .tArray0 => parseTable0
  | .tArray8 => parseArray sizes 1 parserValue
  | .tArray16 => parseArray sizes 2 parserValue
  | .tArray32 => parseArray sizes 4 parserValue
  | .tTable0 => parseTable0
  | .tTable8 => parseTable sizes 1 parserValue
  | .tTable16 => parseTable sizes 2 parserValue
  | .tTable32 => parseTable sizes 4 parserValue

/-- The value at the cursor: its tag, and the decoder that the table `parsers` has for it.  A tag
from `T_MAX` on is refused. -/
def parserValue (sizes : TableSizes) (strTable : StringTable) : Nat → ValueParser
  | 0, _ => .diverges
  | fuel + 1, s =>
    let s := s.log (.value s.reader.p)
    let (type, reader) := s.reader.readType
    let s := { s with reader := reader }
    match BinaryType.ofNat? type with
    | none => return (false, s)
    | some type => parsers sizes strTable (parserValue sizes strTable fuel) type s

/-- `nil` and a message on the stack, and two results. -/
def failWith (s : ParseState) (message : Bytes) : Nat × ParseState :=
  (2, { s with L := s.L.pushnil.pushlstring message })

/-- `lua_pushfstring` knows no `%x` and leaves the directive as it is. -/
def invalidFormatMessage : Bytes := bytesOf "Invalid file format %x"

/-- The message for a version that is not supported, with the number found. -/
def invalidVersionMessage (version : Nat) : Bytes :=
  bytesOf "Invalid file version " ++ bytesOf (toString version)

def parseFailedMessage : Bytes := bytesOf "Parse failed."

/-- The number of results, and the state that is left. -/
def parseBinaryTable (sizes : TableSizes) (L : LuaState) (data : Bytes) :
    Run ParseState (Nat × ParseState) :=
  let top := L.gettop
  let s : ParseState := { L := L, reader := { data := data, p := 0 }, trace := [] }
  let (magic, s) := s.readNumber 2
  if leNat magic ≠ magicNumber then return failWith s invalidFormatMessage
  else
    let (version, s) := s.readNumber 2
    if leNat version ≠ luabtVersion then
      return failWith s (invalidVersionMessage (leNat version))
    else do
      let (ok, strTable, s) ← StringTable.parse sizes s
      let (ok, s) ←
        if ok then parserValue sizes strTable (data.length + 1) s else pure (false, s)
      if ok then return (1, { s with L := strTable.destroy s.L })
      else return failWith { s with L := s.L.settop top } parseFailedMessage

end Reader

end LuaBinaryTable
