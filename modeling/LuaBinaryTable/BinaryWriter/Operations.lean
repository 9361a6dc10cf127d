import LuaBinaryTable.BinaryReader
import LuaBinaryTable.BinaryWriter.Pointers

/-!
# Sequences of writes and reads

The public operations of `BinaryWriter` as data, with the bytes that each of them is to append, and
for each the read of `BinaryReader` that matches it.
-/

namespace LuaBinaryTable

/-- A type `T` of `writeNumber<T>` and `readNumber<T>`.  The values of a floating type are its bit
patterns, those of an unsigned type of its size. -/
structure NumberType where
  size : Nat
  signed : Bool

/-- The integers of the type. -/
def NumberType.Holds (T : NumberType) (v : Int) : Prop :=
  if T.signed then -(256 ^ T.size : Int) ≤ 2 * v ∧ 2 * v < 256 ^ T.size
  else 0 ≤ v ∧ v < 256 ^ T.size

/-- The value with the given bytes. -/
def NumberType.decode (T : NumberType) (bs : Bytes) : Int :=
  if T.signed then leInt bs else leNat bs

/-- An operation of `BinaryWriter`, with its arguments. -/
inductive WriterOp where
  | writeNumber (T : NumberType) (v : Int) (holds : T.Holds v)
  | writeType (type : BinaryType)
  | writeChar (ch : UInt8)
  | writeBytes (data : Bytes)
  | writeString (str : Bytes)
  | writeIndent (n : Int)
  | reserve (capacity : Nat)
  | ensure (size : Nat)

/-- What a read returns: the value of a number, a tag or a character, the bytes of a string, and
nothing where there is nothing to read. -/
inductive ReadResult where
  | number (v : Int)
  | bytes (bs : Option Bytes)
  | nothing
  deriving DecidableEq

namespace WriterOp

/-- Carry out an operation. -/
def run (m : Allocator) : WriterOp → PointerWriter → Option PointerWriter
  | writeNumber T v _, w => w.writeNumber m T.size v
  | writeType type, w => w.writeType m type
  | writeChar ch, w => w.writeChar m ch
  | writeBytes data, w => w.writeBytes m data
  | writeString str, w => w.writeString m str
  | writeIndent n, w => w.writeIndent m n
  | reserve capacity, w => some (w.reserve m capacity)
  | ensure size, w => some (w.ensure m size)

/-- The same on the writer without pointers. -/
def apply : WriterOp → BinaryWriter → BinaryWriter
  | writeNumber T v _, a => a.writeNumber T.size v
  | writeType type, a => a.writeType type
  | writeChar ch, a => a.writeChar ch
  | writeBytes data, a => a.writeBytes data
  | writeString str, a => a.writeBytes (str.takeWhile (· != 0))
  | writeIndent n, a => a.writeIndent n
  | reserve capacity, a => a.reserve capacity
  | ensure size, a => a.ensure size

/-- The bytes of an operation. -/
def bytes : WriterOp → Bytes
  | writeNumber T v _ => leBytesInt T.size v
  | writeType type => [UInt8.ofNat type.value]
  | writeChar ch => [ch]
  | writeBytes data => data
  | writeString str => str.takeWhile (· != 0)
  | writeIndent n => List.replicate n.toNat 9
  | reserve _ | ensure _ => []

/-- The number of bytes that the matching read asks for, and compares with what is left. -/
def readSize : WriterOp → Nat
  | writeNumber T _ _ => T.size
  | writeType _ | writeChar _ => 1
  | writeBytes data => data.length
  | writeString str => strlen str
  | writeIndent n => n.toNat
  | reserve _ | ensure _ => 0

/-- The matching read. -/
def read : WriterOp → BinaryReader → ReadResult × BinaryReader
  | writeNumber T v h, r =>
    let (bs, r) := r.readNumber (writeNumber T v h).readSize
    (.number (T.decode bs), r)
  | writeType _, r =>
    let (type, r) := r.readType
    (.number type, r)
  | writeChar ch, r =>
    let (bs, r) := r.readNumber (writeChar ch).readSize
    (.number (leNat bs), r)
  | writeBytes data, r =>
    let (bs, r) := r.readBytes (writeBytes data).readSize
    (.bytes bs, r)
  | writeString str, r =>
    let (bs, r) := r.readBytes (writeString str).readSize
    (.bytes bs, r)
  | writeIndent n, r =>
    let (bs, r) := r.readBytes (writeIndent n).readSize
    (.bytes bs, r)
  | reserve _, r | ensure _, r => (.nothing, r)

/-- What the matching read is to return. -/
def value : WriterOp → ReadResult
  | writeNumber _ v _ => .number v
  | writeType type => .number type.value
  | writeChar ch => .number ch.toNat
  | writeBytes data => .bytes (some data)
  | writeString str => .bytes (some (str.takeWhile (· != 0)))
  | writeIndent n => .bytes (some (List.replicate n.toNat 9))
  | reserve _ | ensure _ => .nothing

end WriterOp

/-- Carry out operations one after the other. -/
def runOps (m : Allocator) : List WriterOp → PointerWriter → Option PointerWriter
  | [], w => some w
  | op :: ops, w => (op.run m w).bind (runOps m ops)

/-- The matching reads one after the other, with what they return. -/
def readOps : List WriterOp → BinaryReader → List ReadResult × BinaryReader
  | [], r => ([], r)
  | op :: ops, r =>
    let (v, r) := op.read r
    let (vs, r) := readOps ops r
    (v :: vs, r)

end LuaBinaryTable
