import LuaBinaryTable.Document.Emit
import LuaBinaryTable.Document.Read

/-!
# The bytes of a document

`encode` is the body that is written for a complete document, given the strings of the finished
pool, and `collect` is that pool.  The encoder hands out string numbers while it goes, so that the
two agree is a theorem (`emit_eq` in `Document/Equiv/Emit.lean`).
-/

namespace LuaBinaryTable

/-- The tag that `writeInteger` chooses. -/
def integerType (value : Int) : BinaryType :=
  if value = 0 then .tZero
  else if value = 1 then .tOne
  else if -2 ^ 7 ≤ value ∧ value ≤ 2 ^ 7 - 1 then .tInt8
  else if -2 ^ 15 ≤ value ∧ value ≤ 2 ^ 15 - 1 then .tInt16
  else if -2 ^ 31 ≤ value ∧ value ≤ 2 ^ 31 - 1 then .tInt32
  else .tInt64

/-- The tag that `writeLength` chooses. -/
def lengthType (type0 : BinaryType) (length : Nat) : BinaryType :=
  if length = 0 then type0
  else if length ≤ 2 ^ 8 - 1 then type0.plus 1
  else if length ≤ 2 ^ 16 - 1 then type0.plus 2
  else type0.plus 3

namespace BinaryType

/-- A tag byte with its payload. -/
def node (type : BinaryType) (payload : Int) : Bytes :=
  UInt8.ofNat type.value :: leBytesInt type.width payload

end BinaryType

namespace Doc

mutual

/-- The strings stored for the document, after the strings `seen`. -/
def collect : Doc → List Bytes → List Bytes
  | string s, seen => if s = [] ∨ s ∈ seen then seen else seen ++ [s]
  | array _ items, seen => collectItems items seen
  | table _ items, seen => collectItems items seen
  | _, seen => seen

def collectItems : List Doc → List Bytes → List Bytes
  | [], seen => seen
  | d :: ds, seen => collectItems ds (d.collect seen)

end

section

variable (pool : List Bytes)

/-- The number of a string in the pool. -/
def stringIndex (s : Bytes) : Nat := pool.idxOf s + 1

mutual

/-- The bytes of a document, the strings by their numbers in the pool. -/
def encode : Doc → Bytes
  | nil => BinaryType.tNil.node 0
  | boolean b => (if b then BinaryType.tTrue else .tFalse).node 0
  | integer i => (integerType i).node i
  | double x => BinaryType.tDouble.node x.bits.toNat
  | string s =>
    if s = [] then BinaryType.tString0.node 0
    else (lengthType .tString0 (stringIndex pool s)).node (stringIndex pool s)
  | emptyTable => BinaryType.tTable0.node 0
  | array size items => (lengthType .tArray0 size).node size ++ encodeItems items
  | table size items => (lengthType .tTable0 size).node size ++ encodeItems items
  | stop _ => []

def encodeItems : List Doc → Bytes
  | [] => []
  | d :: ds => d.encode ++ encodeItems ds

end

end

/-- The bytes of a pool: every string behind its length. -/
def encodePool : List Bytes → Bytes
  | [] => []
  | s :: ss => leBytesInt stringLengthSize s.length ++ s ++ encodePool ss

/-- The bytes of a file in front of its body. -/
def encodeHead (strs : List Bytes) : Bytes :=
  leBytesInt 2 magicNumber ++ (leBytesInt 2 luabtVersion ++
    (leBytesInt stringPoolLengthSize strs.length ++ encodePool strs))

/-- The strings that a pool can hold. -/
def PoolStrings (strs : List Bytes) : Prop :=
  strs.length < 2 ^ 32 ∧ ∀ s ∈ strs, s ≠ [] ∧ s.length < 2 ^ 16

/-- The bytes of a file. -/
def encodeFile (d : Doc) : Bytes :=
  let pool := d.collect []
  leBytesInt 2 magicNumber ++ leBytesInt 2 luabtVersion ++
    leBytesInt stringPoolLengthSize pool.length ++ encodePool pool ++ d.encode pool

/-! ### What the format can hold -/

section

variable (limit : Nat)

mutual

/-- The document has counts that fit its items, below `limit`, integers of 64 bits, and strings
whose length fits the pool. -/
def Encodable : Doc → Prop
  | integer i => Binary64.InInt64 i
  | string s => s.length < 2 ^ 16
  | array size items => 0 < size ∧ size < limit ∧ items.length = size ∧ EncodableItems items
  | table size items => 0 < size ∧ size < limit ∧ items.length = 2 * size ∧ EncodableItems items
  | stop _ => False
  | _ => True

def EncodableItems : List Doc → Prop
  | [] => True
  | d :: ds => d.Encodable ∧ EncodableItems ds

end

end

end Doc

end LuaBinaryTable
