import Mathlib.Data.Nat.Basic
import Mathlib.Algebra.Order.Group.Int
import Mathlib.Tactic.Ring

/-!
# Byte strings and fixed-width little-endian integers

`leBytes w n` is the `w`-byte little-endian encoding of `n` modulo `256^w`, `leNat` the unsigned
integer a byte string encodes, and `leInt` its two's-complement reading.  The two directions are
inverse on the integers of the width (`leNat_leBytes`, `leInt_leBytes`, `leBytes_leNat`).
-/

namespace LuaBinaryTable

/-- A byte string. -/
abbrev Bytes := List UInt8

/-- The bytes of a source literal, all of which are ASCII. -/
def bytesOf (s : String) : Bytes := s.toList.map fun c => UInt8.ofNat c.toNat

/-- The number of bytes before the first zero. -/
def strlen (s : Bytes) : Nat := (s.takeWhile (· != 0)).length

/-- The low `w` bytes of `n`, least significant first. -/
def leBytes : Nat → Nat → Bytes
  | 0, _ => []
  | w + 1, n => UInt8.ofNat n :: leBytes w (n / 256)

/-- The unsigned integer with the given bytes, least significant first. -/
def leNat : Bytes → Nat
  | [] => 0
  | b :: bs => b.toNat + 256 * leNat bs

/-- The low `w` bytes of the two's-complement representation of `z`. -/
def leBytesInt (w : Nat) (z : Int) : Bytes := leBytes w (z % 256 ^ w).toNat

/-- The two's-complement integer with the given bytes. -/
def leInt (bs : Bytes) : Int := (leNat bs : Int).bmod (256 ^ bs.length)

@[simp] theorem length_leBytes (w n : Nat) : (leBytes w n).length = w := by
  induction w generalizing n with
  | zero => rfl
  | succ w ih => simp [leBytes, ih]

@[simp] theorem length_leBytesInt (w : Nat) (z : Int) : (leBytesInt w z).length = w :=
  length_leBytes _ _

/-- Only the low bytes count. -/
theorem leBytesInt_mod (w n : Nat) : leBytesInt w ((n % 256 ^ w : Nat) : Int) = leBytesInt w n := by
  rw [leBytesInt, leBytesInt, Int.natCast_mod, Nat.cast_pow]
  exact congrArg (fun z : Int => leBytes w z.toNat) (Int.emod_emod _ _)

theorem leNat_lt (bs : Bytes) : leNat bs < 256 ^ bs.length := by
  induction bs with
  | nil => simp [leNat]
  | cons b bs ih =>
    have hb := b.toNat_lt
    have hp : 256 ^ (bs.length + 1) = 256 * 256 ^ bs.length := by ring
    simp only [leNat, List.length_cons, hp]
    omega

theorem leNat_zeros (w : Nat) : leNat (List.replicate w 0) = 0 := by
  induction w with
  | zero => rfl
  | succ w ih => rw [List.replicate_succ, leNat, ih]; rfl

theorem leNat_leBytes (w n : Nat) : leNat (leBytes w n) = n % 256 ^ w := by
  induction w generalizing n with
  | zero => simp [leBytes, leNat, Nat.mod_one]
  | succ w ih =>
    have hp : 256 ^ (w + 1) = 256 * 256 ^ w := by ring
    rw [leBytes, leNat, ih, UInt8.toNat_ofNat', hp, Nat.mod_mul]

theorem leNat_leBytes_of_lt {w n : Nat} (h : n < 256 ^ w) : leNat (leBytes w n) = n := by
  rw [leNat_leBytes, Nat.mod_eq_of_lt h]

theorem leBytes_leNat (bs : Bytes) : leBytes bs.length (leNat bs) = bs := by
  induction bs with
  | nil => rfl
  | cons b bs ih =>
    have hb := b.toNat_lt
    have hd : (b.toNat + 256 * leNat bs) / 256 = leNat bs := by omega
    simp only [leNat, List.length_cons, leBytes, hd, ih, List.cons.injEq, and_true]
    apply UInt8.toNat_inj.mp
    rw [UInt8.toNat_ofNat']
    omega

/-- A signed integer of the width is recovered from its bytes. -/
theorem leInt_leBytesInt {w : Nat} {z : Int} (hlo : -(256 ^ w : Int) ≤ 2 * z)
    (hhi : 2 * z < 256 ^ w) : leInt (leBytesInt w z) = z := by
  have hp : (0 : Int) < 256 ^ w := Int.pow_pos (by decide)
  have hmod : ((z % 256 ^ w).toNat : Int) = z % 256 ^ w :=
    Int.toNat_of_nonneg (Int.emod_nonneg _ hp.ne')
  have hlt : (z % 256 ^ w).toNat < 256 ^ w := by
    have := Int.emod_lt_of_pos z hp
    have hc : ((256 ^ w : Nat) : Int) = 256 ^ w := by push_cast; rfl
    omega
  unfold leInt leBytesInt
  rw [leNat_leBytes_of_lt hlt, length_leBytes, hmod]
  have hc : (256 ^ w : Int) = ((256 ^ w : Nat) : Int) := by push_cast; rfl
  rw [hc, Int.emod_bmod]
  apply Int.bmod_eq_of_le <;> omega

end LuaBinaryTable
