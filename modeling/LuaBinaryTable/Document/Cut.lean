import LuaBinaryTable.Document.Encode

/-!
# Whole and cut documents

The bytes of a value as a grammar of their own, next to the decoder: a value is a tag, a payload and
as many values as they announce.  A value is cut where the bytes end inside of the payload of the
last value that they begin.  In a pool of `n` strings the index of a string is at most `n`; the
index 0 stands for `nil`.
-/

namespace LuaBinaryTable

/-- A value can stand behind the tag and its payload. -/
def BinaryType.Stands (n : Nat) (payload : Bytes) : BinaryType → Prop
  | tEof => False
  | tString8 | tString16 | tString32 => leNat payload ≤ n
  | _ => True

mutual

/-- The bytes of a value. -/
inductive IsValue (n : Nat) : Bytes → Prop
  | node {type : BinaryType} {payload bs : Bytes} (width : payload.length = type.width)
      (stands : type.Stands n payload) (items : IsItems n (type.items payload) bs) :
      IsValue n (UInt8.ofNat type.value :: (payload ++ bs))

/-- The bytes of a number of values. -/
inductive IsItems (n : Nat) : Nat → Bytes → Prop
  | nil : IsItems n 0 []
  | cons {count : Nat} {b bs : Bytes} (head : IsValue n b) (tail : IsItems n count bs) :
      IsItems n (count + 1) (b ++ bs)

end

mutual

/-- The bytes of a value whose last payload is not all there. -/
inductive IsCut (n : Nat) : Bytes → Prop
  | payload {type : BinaryType} {payload : Bytes} (short : payload.length < type.width) :
      IsCut n (UInt8.ofNat type.value :: payload)
  | items {type : BinaryType} {payload bs : Bytes} (width : payload.length = type.width)
      (items : IsCutItems n (type.items payload) bs) :
      IsCut n (UInt8.ofNat type.value :: (payload ++ bs))

/-- The bytes of a number of values, the last of which is cut. -/
inductive IsCutItems (n : Nat) : Nat → Bytes → Prop
  | last {b : Bytes} (cut : IsCut n b) : IsCutItems n 1 b
  | cons {count : Nat} {b bs : Bytes} (head : IsValue n b) (tail : IsCutItems n count bs) :
      IsCutItems n (count + 1) (b ++ bs)

end

/-- A file with a whole body, and possibly more bytes behind it. -/
def WholeDocument (data : Bytes) : Prop :=
  ∃ strs body rest, Doc.PoolStrings strs ∧ IsValue strs.length body ∧
    data = Doc.encodeHead strs ++ (body ++ rest)

/-- A file whose body is cut inside of the payload of the last value that it begins. -/
def CutDocument (data : Bytes) : Prop :=
  ∃ strs body, Doc.PoolStrings strs ∧ IsCut strs.length body ∧
    data = Doc.encodeHead strs ++ body

end LuaBinaryTable
