import LuaBinaryTable.BinaryReader
import Mathlib.Tactic.NormNum

/-!
# Bytes ahead of the cursor

What a `BinaryReader` reads where the bytes at its cursor are known.
-/

namespace LuaBinaryTable

/-- An unsigned number of the width is recovered from its bytes. -/
theorem leNat_leBytesInt {w n : Nat} (h : n < 256 ^ w) : leNat (leBytesInt w n) = n := by
  have hz : ((n : Int) % 256 ^ w).toNat = n := by
    rw [Int.emod_eq_of_lt (Int.natCast_nonneg n) (by exact_mod_cast h), Int.toNat_natCast]
  rw [leBytesInt, hz, leNat_leBytes_of_lt h]

theorem leBytesInt_leNat (bs : Bytes) : leBytesInt bs.length (leNat bs) = bs := by
  have hz : ((leNat bs : Int) % 256 ^ bs.length).toNat = leNat bs := by
    rw [Int.emod_eq_of_lt (Int.natCast_nonneg _) (by exact_mod_cast leNat_lt bs), Int.toNat_natCast]
  rw [leBytesInt, hz, leBytes_leNat]

namespace BinaryReader

/-- The bytes `bs` lie at the cursor. -/
def Ahead (r : BinaryReader) (bs : Bytes) : Prop := bs <+: r.data.drop r.p

/-- The reader past the next `n` bytes. -/
def skip (r : BinaryReader) (n : Nat) : BinaryReader := { r with p := r.p + n }

variable {r : BinaryReader} {bs cs : Bytes}

theorem skip_skip (r : BinaryReader) (m n : Nat) : (r.skip m).skip n = r.skip (m + n) := by
  simp only [skip, Nat.add_assoc]

theorem readNumber_of_le {w : Nat} (h : r.p + w ≤ r.data.length) :
    r.readNumber w = ((r.data.drop r.p).take w, r.skip w) := by
  rw [readNumber, if_pos h]
  rfl

theorem readNumber_of_lt {w : Nat} (h : r.data.length < r.p + w) :
    r.readNumber w = (List.replicate w 0, r.skip w) := by
  rw [readNumber, if_neg (Nat.not_le_of_lt h)]
  rfl

theorem readType_of_lt (h : r.p < r.data.length) :
    r.readType = (r.data[r.p].toNat, r.skip 1) := by
  rw [readType, readNumber_of_le (Nat.succ_le_of_lt h), List.drop_eq_getElem_cons h,
    List.take_succ_cons, List.take_zero]
  show (r.data[r.p].toNat + 256 * 0, r.skip 1) = _
  rw [Nat.mul_zero, Nat.add_zero]

theorem Ahead.left (h : r.Ahead (bs ++ cs)) : r.Ahead bs := (List.prefix_append bs cs).trans h

theorem Ahead.right (h : r.Ahead (bs ++ cs)) : (r.skip bs.length).Ahead cs := by
  obtain ⟨t, ht⟩ := h
  refine ⟨t, ?_⟩
  rw [skip, ← List.drop_drop, ← ht, List.append_assoc, List.drop_left]

theorem Ahead.drop_eq (h : r.Ahead bs) : r.data.drop r.p = bs ++ r.data.drop (r.p + bs.length) := by
  rw [← List.drop_drop]
  exact (List.prefix_iff_eq_append.mp h).symm

theorem Ahead.append (h : r.Ahead bs) (h' : (r.skip bs.length).Ahead cs) : r.Ahead (bs ++ cs) := by
  rw [Ahead, h.drop_eq]
  exact (List.prefix_append_right_inj bs).mpr h'

theorem Ahead.le (h : r.Ahead bs) (hne : bs ≠ []) : r.p + bs.length ≤ r.data.length := by
  have hlen := h.length_le
  have hpos := List.length_pos_iff.mpr hne
  rw [List.length_drop] at hlen
  omega

theorem readNumber_of_ahead (h : r.Ahead bs) : r.readNumber bs.length = (bs, r.skip bs.length) := by
  by_cases hne : bs = []
  · subst hne
    simp [readNumber, skip]
  · rw [readNumber_of_le (h.le hne), ← List.prefix_iff_eq_take.mp h]

theorem readBytes_of_le (h : r.Ahead bs) (hle : r.p + bs.length ≤ r.data.length) :
    r.readBytes bs.length = (some bs, r.skip bs.length) := by
  rw [readBytes, if_pos hle, skip, ← List.prefix_iff_eq_take.mp h]

theorem readBytes_of_ahead (h : r.Ahead bs) (hne : bs ≠ []) :
    r.readBytes bs.length = (some bs, r.skip bs.length) :=
  readBytes_of_le h (h.le hne)

theorem readInt_of_ahead {w : Nat} {z : Int} (h : r.Ahead (leBytesInt w z)) :
    r.readNumber w = (leBytesInt w z, r.skip w) := by
  have hr := readNumber_of_ahead h
  rwa [length_leBytesInt] at hr

/-- What is read inside of the input lies at the cursor. -/
theorem ahead_readNumber {w : Nat} (h : r.p + w ≤ r.data.length) : r.Ahead (r.readNumber w).1 := by
  rw [readNumber_of_le h]
  exact List.take_prefix _ _

/-- Past the end a number reads as zero. -/
theorem add_le_of_readNumber {w : Nat} (h : leNat (r.readNumber w).1 ≠ 0) :
    r.p + w ≤ r.data.length := by
  by_contra hlt
  rw [readNumber_of_lt (Nat.lt_of_not_le hlt)] at h
  exact h (leNat_zeros w)

theorem ahead_of_readBytes {n : Nat} {str : Bytes} {r' : BinaryReader}
    (h : r.readBytes n = (some str, r')) : str.length = n ∧ r.Ahead str ∧ r' = r.skip n := by
  unfold readBytes at h
  split_ifs at h with hle
  · injection h with hstr hr
    injection hstr with hstr
    subst hstr hr
    refine ⟨?_, List.take_prefix _ _, rfl⟩
    rw [List.length_take, List.length_drop]
    omega
  · cases h

end BinaryReader

end LuaBinaryTable
