import LuaBinaryTable.BinaryReader
import LuaBinaryTable.Document.Materialise
import LuaBinaryTable.Reader.StringTable

/-!
# Reading a document

The format as a grammar.  A value is a tag, a payload of a width that the tag fixes, and as many
further values as tag and payload announce.  `readDoc` follows it with the cursor of the decoder,
which reads zeros past the end of the input, and yields a tree that ends in a `stop` at the first
place where no value stands.
-/

namespace LuaBinaryTable

namespace BinaryType

/-- The number of payload bytes behind a tag. -/
def width : BinaryType → Nat
  | tInt8 | tString8 | tArray8 | tTable8 => 1
  | tInt16 | tString16 | tArray16 | tTable16 => 2
  | tInt32 | tFloat | tString32 | tArray32 | tTable32 => 4
  | tInt64 | tDouble => 8
  | _ => 0

/-- The number of values that follow a tag and its payload. -/
def items (payload : Bytes) : BinaryType → Nat
  | tArray8 | tArray16 | tArray32 => leNat payload
  | tTable8 | tTable16 | tTable32 => 2 * leNat payload
  | _ => 0

/-- The value of a tag, its payload and the values that follow.  `pool` is the value of a string
index. -/
def build (pool : Nat → Doc) (payload : Bytes) (ds : List Doc) : BinaryType → Doc
  | tEof => .stop .malformed
  | tNil => .nil
  | tTrue => .boolean true
  | tFalse => .boolean false
  | tZero => .integer 0
  | tOne => .integer 1
  | tInt8 | tInt16 | tInt32 | tInt64 => .integer (leInt payload)
  | tFloat => .double (Binary64.ofBinary32 (UInt32.ofNat (leNat payload)))
  | tDouble => .double ⟨UInt64.ofNat (leNat payload)⟩
  | tString0 => .string []
  | tString8 | tString16 | tString32 => pool (leNat payload)
  | tArray0 | tTable0 => .emptyTable
  | tArray8 | tArray16 | tArray32 => .array (leNat payload) ds
  | tTable8 | tTable16 | tTable32 => .table (leNat payload) ds

end BinaryType

/-- The next `n` values, up to the first that breaks off. -/
def readItems (readDoc : BinaryReader → Doc × BinaryReader) :
    Nat → BinaryReader → List Doc × BinaryReader
  | 0, r => ([], r)
  | n + 1, r =>
    let (d, r) := readDoc r
    if d.Complete then
      let (ds, r) := readItems readDoc n r
      (d :: ds, r)
    else ([d], r)

/-- The value at the cursor. -/
def readDoc (pool : Nat → Doc) : Nat → BinaryReader → Doc × BinaryReader
  | 0, r => (.stop .deep, r)
  | fuel + 1, r =>
    let (type, r) := r.readType
    match BinaryType.ofNat? type with
    | none => (.stop .malformed, r)
    | some type =>
      let (payload, r) := r.readNumber type.width
      let (ds, r) := readItems (readDoc pool fuel) (type.items payload) r
      (type.build pool payload ds, r)

/-! ### The pool -/

/-- The next `n` strings of a pool, and whether there were as many. -/
def readPool : Nat → BinaryReader → List Bytes × Bool × BinaryReader
  | 0, r => ([], true, r)
  | n + 1, r =>
    let (b, r) := r.readNumber stringLengthSize
    let length := leNat b
    if length = 0 then ([], false, r)
    else
      match r.readBytes length with
      | (none, r) => ([], false, r)
      | (some str, r) =>
        let (strs, ok, r) := readPool n r
        (str :: strs, ok, r)

/-- The table of the pool, with the strings from number `i + 1` on added. -/
def fillPool : Nat → LuaTable → List Bytes → LuaTable
  | _, t, [] => t
  | i, t, str :: strs =>
    fillPool (i + 1) (t.set (integer (toInt32 (toInt32 i + 1))) (.string str)) strs

/-- The value of a string index in a pool of `size` strings: index 0 is `nil`, and an index above
the size is none. -/
def poolDoc (t : LuaTable) (size i : Nat) : Doc :=
  if i ≤ size then
    match t.get (integer (toInt32 i)) with
    | .string str => .string str
    | _ => .nil
  else .stop .malformed

/-- What a document is read as. -/
inductive Reading where
  | invalidFormat
  | invalidVersion (version : Nat)
  /-- The pool breaks off after some strings. -/
  | brokenPool (size : Nat) (strs : List Bytes)
  | body (strs : List Bytes) (d : Doc) (r : BinaryReader)

/-- The header, the pool and the value of a document, without a Lua state. -/
def readDocument (data : Bytes) : Reading :=
  let (magic, r) := BinaryReader.readNumber 2 { data := data, p := 0 }
  if leNat magic ≠ magicNumber then .invalidFormat
  else
    let (version, r) := r.readNumber 2
    if leNat version ≠ luabtVersion then .invalidVersion (leNat version)
    else
      let (size, r) := r.readNumber stringPoolLengthSize
      match readPool (leNat size) r with
      | (strs, false, _) => .brokenPool (leNat size) strs
      | (strs, true, r) =>
        let pool := poolDoc (fillPool 0 LuaTable.empty strs) strs.length
        let (d, r) := readDoc pool (data.length + 1) r
        .body strs d r

namespace Reading

variable (sizes : TableSizes)

/-- How the decoder fares on what it reads. -/
def outcome : Reading → Outcome
  | invalidFormat => .fails
  | invalidVersion _ => .fails
  | brokenPool size _ => if sizes (toInt32 size) 0 then .fails else .raises
  | body strs d _ => if sizes (toInt32 strs.length) 0 then d.outcome sizes else .raises

/-- The greatest number of slots that the decoder uses, its results included. -/
def slots : Reading → Nat
  | invalidFormat => 2
  | invalidVersion _ => 2
  | brokenPool size _ => if sizes (toInt32 size) 0 then 2 else 0
  | body strs d _ =>
    if sizes (toInt32 strs.length) 0 then
      max (1 + max (min 1 strs.length) (d.slots sizes))
        (if d.outcome sizes = .fails then 2 else 0)
    else 0

end Reading

end LuaBinaryTable
