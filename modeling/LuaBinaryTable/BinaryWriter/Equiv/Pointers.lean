import LuaBinaryTable.BinaryWriter.Pointers

/-!
# The pointers carry the bytes

`Represents` relates the three pointers and their block to a `BinaryWriter`, which knows of the
bytes written and of the capacity only.  Every operation of the pointers keeps the relation to the
operation of the same name, and has a result: no store leaves the block.
-/

namespace LuaBinaryTable

theorem BinaryWriter.size_put (a : BinaryWriter) (bs : Bytes)
    (hroom : a.size + bs.length ≤ a.capacity) : (a.put bs hroom).size = a.size + bs.length :=
  List.length_append

/-- The pointers are as far apart as size and capacity say, and the block starts with the bytes. -/
structure Represents (w : PointerWriter) (a : BinaryWriter) : Prop where
  p_eq : w.p_ = w.data_ + a.size
  end_eq : w.end_ = w.data_ + a.capacity
  length_block : w.block.length = a.capacity
  take_block : w.block.take a.size = a.data
  capacity_of_null : w.data_ = 0 → a.capacity = 0

namespace Represents

variable {m : Allocator} {w : PointerWriter} {a : BinaryWriter}

theorem fresh : Represents .fresh .empty where
  p_eq := rfl
  end_eq := rfl
  length_block := rfl
  take_block := rfl
  capacity_of_null _ := rfl

theorem size_eq (h : Represents w a) : w.size = a.size := by
  rw [PointerWriter.size, h.p_eq, Nat.add_sub_cancel_left]

theorem capacity_eq (h : Represents w a) : w.capacity = a.capacity := by
  rw [PointerWriter.capacity, h.end_eq, Nat.add_sub_cancel_left]

theorem content_eq (h : Represents w a) : w.content = a.data := by
  rw [PointerWriter.content, h.size_eq, h.take_block]

/-! ### Growth -/

/-- A block that is moved to a larger one keeps its bytes. -/
theorem take_realloc (n : Nat) {block : Bytes} {k size : Nat} (hk : k ≤ block.length)
    (hsize : block.length ≤ size) : (m.realloc n block size).take k = block.take k := by
  apply List.ext_getElem
  · rw [Allocator.realloc, List.length_take, List.length_take, List.length_map, List.length_range]
    omega
  · intro i hi hi'
    rw [List.length_take] at hi'
    have hlt : i < block.length := by omega
    simp only [Allocator.realloc, List.getElem_take, List.getElem_map, List.getElem_range]
    exact (List.getElem_eq_getD (h := hlt) _).symm

/-- `realloc` keeps the bytes of the old block, so the content is what it was. -/
theorem reserve (h : Represents w a) (capacity : Nat) :
    Represents (w.reserve m capacity) (a.reserve capacity) := by
  have hfits := a.fits
  rw [PointerWriter.reserve, BinaryWriter.reserve, h.capacity_eq]
  by_cases hlt : a.capacity < capacity
  · rw [if_pos hlt, dif_pos hlt]
    constructor
    · show m.address w.allocations + w.size = _
      rw [h.size_eq]
      rfl
    · rfl
    · show (if w.data_ ≠ 0 then _ else _ : Bytes).length = capacity
      split_ifs
      · rw [Allocator.realloc, List.length_map, List.length_range]
      · rw [Allocator.malloc, List.length_map, List.length_range]
    · show (if w.data_ ≠ 0 then _ else _ : Bytes).take a.size = a.data
      split_ifs with hnull
      · have hblock := h.length_block
        rw [take_realloc _ (by rw [hblock]; exact hfits) (by omega), h.take_block]
      · -- nothing has been written behind a null pointer
        have hzero := h.capacity_of_null (not_not.mp hnull)
        have hempty : a.data = [] := List.length_eq_zero_iff.mp (by omega)
        rw [hempty, BinaryWriter.size, hempty, List.length_nil, List.take_zero]
    · intro hnull
      exact absurd hnull (m.address_pos _).ne'
  · rw [if_neg hlt, dif_neg hlt]
    exact h

theorem ensure (h : Represents w a) (size : Nat) :
    Represents (w.ensure m size) (a.ensure size) := by
  have hfull : w.end_ < w.p_ + size ↔ a.capacity < a.size + size := by
    rw [h.end_eq, h.p_eq]
    omega
  rw [PointerWriter.ensure, BinaryWriter.ensure]
  by_cases hlt : a.capacity < a.size + size
  · rw [if_pos (hfull.mpr hlt), if_pos hlt, h.size_eq, h.capacity_eq, Nat.shiftLeft_eq, pow_one]
    exact h.reserve _
  · rw [if_neg (mt hfull.mp hlt), if_neg hlt]
    exact h

/-! ### Stores -/

/-- What a store past the end would be has room. -/
theorem store (h : Represents w a) (bs : Bytes) (hroom : a.size + bs.length ≤ a.capacity) :
    ∃ w', w.store bs = some w' ∧ Represents w' (a.put bs hroom) := by
  have hblock := h.length_block
  have hp := h.p_eq
  have hlen : (w.block.take a.size).length = a.size := by
    rw [List.length_take]
    omega
  refine ⟨_, if_pos ⟨by omega, by rw [h.size_eq]; omega⟩, ?_⟩
  constructor
  · show w.p_ + bs.length = w.data_ + (a.data ++ bs).length
    rw [hp, List.length_append, BinaryWriter.size]
    omega
  · exact h.end_eq
  · show (w.block.take w.size ++ bs ++ w.block.drop (w.size + bs.length)).length = a.capacity
    rw [h.size_eq, List.length_append, List.length_append, hlen, List.length_drop]
    omega
  · show (w.block.take w.size ++ bs ++ w.block.drop (w.size + bs.length)).take
      (a.data ++ bs).length = a.data ++ bs
    rw [h.size_eq, h.take_block, List.take_left]
  · exact h.capacity_of_null

theorem writeNumber (h : Represents w a) (width : Nat) (v : Int) :
    ∃ w', w.writeNumber m width v = some w' ∧ Represents w' (a.writeNumber width v) :=
  (h.ensure width).store _ _

theorem writeChar (h : Represents w a) (ch : UInt8) :
    ∃ w', w.writeChar m ch = some w' ∧ Represents w' (a.writeChar ch) :=
  (h.ensure 1).store _ _

theorem writeBytes (h : Represents w a) (data : Bytes) :
    ∃ w', w.writeBytes m data = some w' ∧ Represents w' (a.writeBytes data) :=
  (h.ensure data.length).store _ _

/-- The tabs that are stored one after the other. -/
theorem writeTabs (n : Nat) (h : Represents w a)
    (hroom : a.size + (List.replicate n (9 : UInt8)).length ≤ a.capacity) :
    ∃ w', w.writeTabs n = some w' ∧ Represents w' (a.put (List.replicate n 9) hroom) := by
  induction n generalizing w a with
  | zero =>
    refine ⟨w, rfl, ?_⟩
    simpa only [BinaryWriter.put, List.replicate_zero, List.append_nil] using h
  | succ n ih =>
    rw [List.length_replicate] at hroom
    obtain ⟨w₁, hstore, h₁⟩ := h.store [9] (by rw [List.length_singleton]; omega)
    obtain ⟨w', hrun, h'⟩ := ih h₁ (by
      rw [List.length_replicate, BinaryWriter.size_put]
      show a.size + 1 + n ≤ a.capacity
      omega)
    refine ⟨w', ?_, ?_⟩
    · rw [PointerWriter.writeTabs, hstore]
      exact hrun
    · simpa only [BinaryWriter.put, List.append_assoc, List.singleton_append,
        ← List.replicate_succ] using h'

theorem writeIndent (h : Represents w a) (n : Int) :
    ∃ w', w.writeIndent m n = some w' ∧ Represents w' (a.writeIndent n) := by
  rw [PointerWriter.writeIndent, BinaryWriter.writeIndent]
  by_cases hn : 0 < n
  · rw [if_pos hn, if_pos hn]
    exact (h.ensure n.toNat).writeTabs n.toNat _
  · rw [if_neg hn, if_neg hn]
    exact ⟨w, rfl, h⟩

end Represents

end LuaBinaryTable
