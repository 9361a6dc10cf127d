import Mathlib.Algebra.BigOperators.Group.List.Basic
import Mathlib.Algebra.GroupWithZero.Nat
import Mathlib.Tactic.Common

/-!
# Buffers that double

A buffer with room for `capacity` items grows, when it is asked for more, to twice its capacity at
least, and to `least` at least; its block is moved then.  `pushes` is what any number of appends
leaves, with the number of times that the buffer has grown and the room in the blocks moved.  Moving
is paid for by the capacity (`paid_pushes`), and appends that need more room than there is, but not
twice as much, make the buffer grow once (`pushes_once`).
-/

namespace LuaBinaryTable

/-- A buffer, with how often it has grown and how much room was in the blocks it has left. -/
structure Doubling where
  size : Nat
  capacity : Nat
  growths : Nat
  moved : Nat

namespace Doubling

variable {least : Nat} {s : Doubling}

/-- Nothing allocated yet. -/
def fresh : Doubling := ⟨0, 0, 0, 0⟩

/-- Make room for `n` items. -/
def grow (least n : Nat) (s : Doubling) : Doubling :=
  if s.capacity < s.size + n then
    { s with
      capacity := max least (max (s.size + n) (s.capacity * 2))
      growths := s.growths + 1
      moved := s.moved + s.capacity }
  else s

/-- Append `n` items. -/
def push (least n : Nat) (s : Doubling) : Doubling :=
  { s.grow least n with size := s.size + n }

/-- Append so many items each time. -/
def pushes (least : Nat) (ns : List Nat) (s : Doubling) : Doubling :=
  ns.foldl (fun s n => s.push least n) s

theorem push_of_room {n : Nat} (h : s.size + n ≤ s.capacity) :
    s.push least n = { s with size := s.size + n } := by
  rw [push, grow, if_neg (Nat.not_lt_of_le h)]

theorem push_of_full {n : Nat} (h : s.capacity < s.size + n) :
    s.push least n = ⟨s.size + n, max least (max (s.size + n) (s.capacity * 2)), s.growths + 1,
      s.moved + s.capacity⟩ := by
  rw [push, grow, if_pos h]

theorem pushes_cons (n : Nat) (ns : List Nat) (s : Doubling) :
    s.pushes least (n :: ns) = (s.push least n).pushes least ns := rfl

/-- A block is moved where the buffer grows. -/
theorem moved_push (least n : Nat) (s : Doubling) :
    (s.push least n).moved =
      s.moved + if (s.push least n).growths = s.growths then 0 else s.capacity := by
  rcases Nat.lt_or_ge s.capacity (s.size + n) with hfull | hroom
  · rw [push_of_full hfull, if_neg (Nat.succ_ne_self _)]
  · rw [push_of_room hroom, if_pos rfl]
    rfl

/-- Where the buffer grows it has at least twice the room. -/
theorem push_doubles (least n : Nat) (s : Doubling) :
    ((s.push least n).growths = s.growths ∧ (s.push least n).capacity = s.capacity) ∨
      ((s.push least n).growths = s.growths + 1 ∧ 2 * s.capacity ≤ (s.push least n).capacity) := by
  rcases Nat.lt_or_ge s.capacity (s.size + n) with hfull | hroom
  · rw [push_of_full hfull]
    refine Or.inr ⟨rfl, ?_⟩
    show 2 * s.capacity ≤ max least (max (s.size + n) (s.capacity * 2))
    omega
  · rw [push_of_room hroom]
    exact Or.inl ⟨rfl, rfl⟩

/-! ### The amortized cost -/

/-- The capacity pays for what has been moved, for the number of growths, and is itself paid for by
the items. -/
structure Paid (least : Nat) (s : Doubling) : Prop where
  fits : s.size ≤ s.capacity
  moved_le : s.moved ≤ s.capacity
  growths_le : s.growths ≠ 0 → least * 2 ^ s.growths ≤ 2 * s.capacity
  capacity_le : s.capacity ≤ max least (2 * s.size)

theorem paid_fresh : Paid least fresh :=
  ⟨Nat.le_refl 0, Nat.le_refl 0, fun h => absurd rfl h, Nat.zero_le _⟩

/-- A block is moved into one of twice its room at least, so what was moved in all stays below the
capacity. -/
theorem Paid.push (h : Paid least s) (n : Nat) : Paid least (s.push least n) := by
  obtain ⟨hfits, hmoved, hgrowths, hcapacity⟩ := h
  rcases Nat.lt_or_ge s.capacity (s.size + n) with hfull | hroom
  · rw [push_of_full hfull]
    refine ⟨?_, ?_, fun _ => ?_, ?_⟩
    · show s.size + n ≤ max least (max (s.size + n) (s.capacity * 2))
      omega
    · show s.moved + s.capacity ≤ max least (max (s.size + n) (s.capacity * 2))
      omega
    · show least * 2 ^ (s.growths + 1) ≤ 2 * max least (max (s.size + n) (s.capacity * 2))
      by_cases hzero : s.growths = 0
      · rw [hzero]
        omega
      · have hbefore := hgrowths hzero
        rw [Nat.pow_succ, ← Nat.mul_assoc]
        omega
    · show max least (max (s.size + n) (s.capacity * 2)) ≤ max least (2 * (s.size + n))
      omega
  · rw [push_of_room hroom]
    refine ⟨hroom, hmoved, hgrowths, ?_⟩
    show s.capacity ≤ max least (2 * (s.size + n))
    omega

/-- Any number of appends is paid for. -/
theorem paid_pushes (ns : List Nat) (h : Paid least s) : Paid least (s.pushes least ns) := by
  induction ns generalizing s with
  | nil => exact h
  | cons n ns ih => exact ih (h.push n)

/-! ### Appends to a buffer of known capacity -/

/-- Appends for which there is room. -/
theorem pushes_within : ∀ {ns : List Nat} {s : Doubling}, s.size + ns.sum ≤ s.capacity →
    s.pushes least ns = { s with size := s.size + ns.sum }
  | [], _, _ => rfl
  | n :: ns, s, h => by
    rw [List.sum_cons, ← Nat.add_assoc] at h ⊢
    rw [pushes_cons, push_of_room (by omega), pushes_within h]

/-- Appends for which there is no room, but will be when the buffer has doubled. -/
theorem pushes_once : ∀ {ns : List Nat} {s : Doubling}, s.size ≤ s.capacity →
    s.capacity < s.size + ns.sum → s.size + ns.sum ≤ 2 * s.capacity →
    (s.pushes least ns).capacity = max least (2 * s.capacity) ∧
      (s.pushes least ns).growths = s.growths + 1
  | [], s, hfits, hfull, _ => absurd hfull (Nat.not_lt_of_le hfits)
  | n :: ns, s, hfits, hfull, hdouble => by
    rw [List.sum_cons, ← Nat.add_assoc] at hfull hdouble
    rw [pushes_cons]
    rcases Nat.lt_or_ge s.capacity (s.size + n) with hnow | hroom
    · rw [push_of_full hnow, pushes_within (by dsimp only; omega)]
      exact ⟨by dsimp only; omega, rfl⟩
    · rw [push_of_room hroom]
      exact @pushes_once ns { s with size := s.size + n } hroom hfull hdouble

end Doubling

end LuaBinaryTable
