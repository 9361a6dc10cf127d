import LuaBinaryTable.Types

/-!
# `BinaryWriter`

The growing output buffer.  A `BinaryWriter` is the bytes from `data_` to `p_` and the capacity
`end_ - data_`; its field `fits` says that the bytes lie inside the allocation, and `put`, the only
operation that stores, asks for the room it needs, so a store past the end cannot be written down.
Allocation is assumed to succeed.
-/

namespace LuaBinaryTable

/-- The bytes written and the room allocated for them. -/
structure BinaryWriter where
  data : Bytes
  capacity : Nat
  fits : data.length ≤ capacity

namespace BinaryWriter

/-- The constructor: nothing written and nothing allocated. -/
def empty : BinaryWriter := ⟨[], 0, Nat.le_refl 0⟩

def size (w : BinaryWriter) : Nat := w.data.length

/-- Reallocation keeps the bytes written and moves `end_`. -/
def reserve (capacity : Nat) (w : BinaryWriter) : BinaryWriter :=
  if h : w.capacity < capacity then ⟨w.data, capacity, Nat.le_trans w.fits (Nat.le_of_lt h)⟩ else w

/-- Room for `n` more bytes, in a block of at least 8 and of twice the capacity before. -/
def ensure (n : Nat) (w : BinaryWriter) : BinaryWriter :=
  if w.capacity < w.size + n then
    w.reserve (max 8 (max (w.size + n) (w.capacity * 2)))
  else w

/-- Store bytes at `p_` and move it past them. -/
def put (w : BinaryWriter) (bs : Bytes) (h : w.size + bs.length ≤ w.capacity) : BinaryWriter :=
  ⟨w.data ++ bs, w.capacity, by rw [List.length_append]; exact h⟩

@[simp] theorem data_reserve (c : Nat) (w : BinaryWriter) : (w.reserve c).data = w.data := by
  unfold reserve
  split <;> rfl

@[simp] theorem data_ensure (n : Nat) (w : BinaryWriter) : (w.ensure n).data = w.data := by
  unfold ensure
  split
  · exact data_reserve _ _
  · rfl

/-- After `ensure(n)` there is room for `n` bytes. -/
theorem room_ensure (n : Nat) (w : BinaryWriter) :
    (w.ensure n).size + n ≤ (w.ensure n).capacity := by
  have hf := w.fits
  unfold ensure reserve size at *
  split
  · rw [dif_pos (by omega)]
    dsimp only
    omega
  · omega

def writeBytes (bs : Bytes) (w : BinaryWriter) : BinaryWriter :=
  (w.ensure bs.length).put bs (w.room_ensure bs.length)

/-- `writeNumber` of a `w`-byte integer, in the byte order of the machine. -/
def writeNumber (width : Nat) (v : Int) (w : BinaryWriter) : BinaryWriter :=
  (w.ensure width).put (leBytesInt width v) (by
    rw [length_leBytesInt]; exact w.room_ensure width)

def writeChar (ch : UInt8) (w : BinaryWriter) : BinaryWriter :=
  (w.ensure 1).put [ch] (w.room_ensure 1)

/-- `writeString` of a literal, which has no zero byte for `strlen` to stop at. -/
def writeString (s : String) (w : BinaryWriter) : BinaryWriter := w.writeBytes (bytesOf s)

/-- The tag, in one byte. -/
def writeType (type : BinaryType) (w : BinaryWriter) : BinaryWriter := w.writeNumber 1 type.value

/-- `n` tabs, none for a negative `n`. -/
def writeIndent (n : Int) (w : BinaryWriter) : BinaryWriter :=
  if 0 < n then
    (w.ensure n.toNat).put (List.replicate n.toNat 9) (by
      rw [List.length_replicate]; exact w.room_ensure n.toNat)
  else w

/-! ### What the operations append -/

@[simp] theorem data_empty : empty.data = [] := rfl

@[simp] theorem data_writeBytes (bs : Bytes) (w : BinaryWriter) :
    (w.writeBytes bs).data = w.data ++ bs := by
  simp [writeBytes, put]

@[simp] theorem data_writeNumber (width : Nat) (v : Int) (w : BinaryWriter) :
    (w.writeNumber width v).data = w.data ++ leBytesInt width v := by
  simp [writeNumber, put]

@[simp] theorem data_writeChar (ch : UInt8) (w : BinaryWriter) :
    (w.writeChar ch).data = w.data ++ [ch] := by
  simp [writeChar, put]

@[simp] theorem data_writeString (s : String) (w : BinaryWriter) :
    (w.writeString s).data = w.data ++ bytesOf s :=
  data_writeBytes _ _

@[simp] theorem data_writeType (type : BinaryType) (w : BinaryWriter) :
    (w.writeType type).data = w.data ++ [UInt8.ofNat type.value] := by
  rw [writeType, data_writeNumber]
  cases type <;> rfl

@[simp] theorem data_writeIndent (n : Int) (w : BinaryWriter) :
    (w.writeIndent n).data = w.data ++ List.replicate n.toNat 9 := by
  unfold writeIndent
  split
  · simp [put]
  · rw [Int.toNat_of_nonpos (by omega), List.replicate_zero, List.append_nil]

end BinaryWriter

end LuaBinaryTable
