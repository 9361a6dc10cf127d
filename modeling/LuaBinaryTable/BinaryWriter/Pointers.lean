import LuaBinaryTable.BinaryWriter

/-!
# The pointers of `BinaryWriter`

`BinaryWriter` as `lua_binary_writer.h` has it: three pointers into a block of memory, which moves
whenever it grows.  A store outside of the block has no result.
-/

namespace LuaBinaryTable

/-- What `malloc` and `realloc` do, which are taken to succeed: the address of the `n`-th block, and
the bytes that it happens to hold. -/
structure Allocator where
  address : Nat → Nat
  garbage : Nat → Nat → UInt8
  address_pos : ∀ n, 0 < address n

/-- The contents of the `n`-th block, of `size` bytes. -/
def Allocator.malloc (m : Allocator) (n size : Nat) : Bytes :=
  (List.range size).map (m.garbage n)

/-- The contents of the `n`-th block, of `size` bytes, to which another is moved. -/
def Allocator.realloc (m : Allocator) (n : Nat) (block : Bytes) (size : Nat) : Bytes :=
  (List.range size).map fun i => block.getD i (m.garbage n i)

/-- The fields of `BinaryWriter`, with the block that `data_` points to and the number of
allocations so far. -/
structure PointerWriter where
  data_ : Nat
  p_ : Nat
  end_ : Nat
  block : Bytes
  allocations : Nat

namespace PointerWriter

/-- The constructor: null pointers. -/
def fresh : PointerWriter := ⟨0, 0, 0, [], 0⟩

def capacity (w : PointerWriter) : Nat := w.end_ - w.data_

def size (w : PointerWriter) : Nat := w.p_ - w.data_

/-- The bytes from `data()` on, `size()` many. -/
def content (w : PointerWriter) : Bytes := w.block.take w.size

/-- A block of `capacity` bytes where there is a smaller one, or none: `realloc` of the old block,
or `malloc`.  The pointers are set anew from its address. -/
def reserve (m : Allocator) (capacity : Nat) (w : PointerWriter) : PointerWriter :=
  if w.capacity < capacity then
    let data := m.address w.allocations
    let block :=
      if w.data_ ≠ 0 then m.realloc w.allocations w.block capacity
      else m.malloc w.allocations capacity
    ⟨data, data + w.size, data + capacity, block, w.allocations + 1⟩
  else w

/-- Room for `size` more bytes, in a block of at least 8 and of twice the capacity before. -/
def ensure (m : Allocator) (size : Nat) (w : PointerWriter) : PointerWriter :=
  if w.end_ < w.p_ + size then
    w.reserve m (max 8 (max (w.size + size) (w.capacity <<< 1)))
  else w

/-- Store bytes from `p_` on and move it past them. -/
def store (bs : Bytes) (w : PointerWriter) : Option PointerWriter :=
  if w.data_ ≤ w.p_ ∧ w.size + bs.length ≤ w.block.length then
    some { w with
      block := w.block.take w.size ++ bs ++ w.block.drop (w.size + bs.length)
      p_ := w.p_ + bs.length }
  else none

/-- `writeNumber` of a number of `width` bytes, in the byte order of the machine. -/
def writeNumber (m : Allocator) (width : Nat) (v : Int) (w : PointerWriter) :
    Option PointerWriter :=
  (w.ensure m width).store (leBytesInt width v)

def writeChar (m : Allocator) (ch : UInt8) (w : PointerWriter) : Option PointerWriter :=
  (w.ensure m 1).store [ch]

def writeBytes (m : Allocator) (data : Bytes) (w : PointerWriter) : Option PointerWriter :=
  (w.ensure m data.length).store data

/-- `writeBytes` of the bytes up to the first zero. -/
def writeString (m : Allocator) (str : Bytes) (w : PointerWriter) : Option PointerWriter :=
  w.writeBytes m (str.take (strlen str))

def writeType (m : Allocator) (type : BinaryType) (w : PointerWriter) : Option PointerWriter :=
  w.writeNumber m 1 type.value

/-- The loop of `writeIndent`. -/
def writeTabs : Nat → PointerWriter → Option PointerWriter
  | 0, w => some w
  | n + 1, w => (w.store [9]).bind (writeTabs n)

/-- Room for all tabs at once, then one after the other. -/
def writeIndent (m : Allocator) (n : Int) (w : PointerWriter) : Option PointerWriter :=
  if 0 < n then (w.ensure m n.toNat).writeTabs n.toNat else some w

end PointerWriter

end LuaBinaryTable
