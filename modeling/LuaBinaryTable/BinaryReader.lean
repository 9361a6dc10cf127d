import LuaBinaryTable.Types

/-!
# `BinaryReader`

The cursor over the input.  `data` is the input, `end_` its length, and `p` the position of `p_`,
which `readNumber` moves past the end when the input is too short.
-/

namespace LuaBinaryTable

/-- The input and the position in it. -/
structure BinaryReader where
  data : Bytes
  p : Nat

namespace BinaryReader

/-- Both overloads of `readNumber`: the bytes of a `w`-byte number, all zero where fewer than `w`
bytes are left.  The cursor moves on in either case. -/
def readNumber (w : Nat) (r : BinaryReader) : Bytes × BinaryReader :=
  (if r.p + w ≤ r.data.length then (r.data.drop r.p).take w else List.replicate w 0,
    { r with p := r.p + w })

/-- The next `n` bytes; where fewer are left, none, and the cursor moves to the end. -/
def readBytes (n : Nat) (r : BinaryReader) : Option Bytes × BinaryReader :=
  if r.p + n ≤ r.data.length then
    (some ((r.data.drop r.p).take n), { r with p := r.p + n })
  else (none, { r with p := r.data.length })

/-- `p_ >= end_`: the position is at the end of the input or past it. -/
def isEmpty (r : BinaryReader) : Bool := decide (r.data.length ≤ r.p)

/-- The value of the next tag byte. -/
def readType (r : BinaryReader) : Nat × BinaryReader :=
  let (b, r) := r.readNumber 1
  (leNat b, r)

theorem length_readNumber (w : Nat) (r : BinaryReader) : (r.readNumber w).1.length = w := by
  unfold readNumber
  dsimp only
  split
  · rw [List.length_take, List.length_drop]
    omega
  · exact List.length_replicate

end BinaryReader

end LuaBinaryTable
