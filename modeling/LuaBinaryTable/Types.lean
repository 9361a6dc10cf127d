import LuaBinaryTable.Bytes.LittleEndian

/-!
# The tags of the format

`lua_binary_types.h`: a document is a magic number, a version, a pool of strings and one value, and
every value starts with one of these tags.
-/

namespace LuaBinaryTable

/-- The enumeration `Type`. -/
inductive BinaryType where
  | tEof | tNil | tTrue | tFalse | tZero | tOne
  | tInt8 | tInt16 | tInt32 | tInt64 | tFloat | tDouble
  | tString0 | tString8 | tString16 | tString32
  | tArray0 | tArray8 | tArray16 | tArray32
  | tTable0 | tTable8 | tTable16 | tTable32
  deriving DecidableEq

namespace BinaryType

/-- The tags in the order of their values. -/
def all : List BinaryType :=
  [tEof, tNil, tTrue, tFalse, tZero, tOne, tInt8, tInt16, tInt32, tInt64, tFloat, tDouble,
    tString0, tString8, tString16, tString32, tArray0, tArray8, tArray16, tArray32,
    tTable0, tTable8, tTable16, tTable32]

/-- The value of a tag in the enumeration. -/
def value : BinaryType → Nat
  | tEof => 0 | tNil => 1 | tTrue => 2 | tFalse => 3 | tZero => 4 | tOne => 5
  | tInt8 => 6 | tInt16 => 7 | tInt32 => 8 | tInt64 => 9 | tFloat => 10 | tDouble => 11
  | tString0 => 12 | tString8 => 13 | tString16 => 14 | tString32 => 15
  | tArray0 => 16 | tArray8 => 17 | tArray16 => 18 | tArray32 => 19
  | tTable0 => 20 | tTable8 => 21 | tTable16 => 22 | tTable32 => 23

/-- The tag of a value; none from `T_MAX` on. -/
def ofNat? (n : Nat) : Option BinaryType := all[n]?

/-- The tag `k` after `t`, the C++ expression `Type(t + k)`. -/
def plus (t : BinaryType) (k : Nat) : BinaryType := (ofNat? (t.value + k)).getD t

theorem ofNat?_value (t : BinaryType) : ofNat? t.value = some t := by cases t <;> rfl

/-- The value fits the byte it is written to. -/
theorem toNat_ofNat_value (t : BinaryType) : (UInt8.ofNat t.value).toNat = t.value := by
  cases t <;> rfl

end BinaryType

/-- The first two bytes of a document. -/
def magicNumber : Nat := 0x7462

/-- The version that the encoder writes and the decoder asks for. -/
def luabtVersion : Nat := 1

/-- `sizeof(TStringLength)`. -/
def stringLengthSize : Nat := 2

/-- `sizeof(TStringPoolLength)`. -/
def stringPoolLengthSize : Nat := 4

end LuaBinaryTable
