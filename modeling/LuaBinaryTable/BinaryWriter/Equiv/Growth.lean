import LuaBinaryTable.BinaryWriter.Equiv.Operations
import LuaBinaryTable.Doubling

/-!
# How the buffer of `BinaryWriter` grows

For its capacity a `BinaryWriter` is a buffer that doubles (`Tracks`).  So any number of writes is
paid for: the block is at most twice as large as what has been written, and what `realloc` has moved
is no more than the block (`runOps_growth`).
-/

namespace LuaBinaryTable

/-- The operation appends bytes, and does not just make room. -/
def WriterOp.Writes : WriterOp → Prop
  | .reserve _ | .ensure _ => False
  | _ => True

/-- The bytes of the blocks that `realloc` has moved in the course of the operations. -/
def movedOps (m : Allocator) : List WriterOp → PointerWriter → Nat
  | [], _ => 0
  | op :: ops, w =>
    match op.run m w with
    | some w' => (if w'.allocations = w.allocations then 0 else w.capacity) + movedOps m ops w'
    | none => 0

/-- Every operation leaves the block, or makes one that is at least twice as large. -/
def DoublesOps (m : Allocator) : List WriterOp → PointerWriter → Prop
  | [], _ => True
  | op :: ops, w => ∀ w', op.run m w = some w' →
      ((w'.allocations = w.allocations ∧ w'.capacity = w.capacity) ∨
        (w'.allocations = w.allocations + 1 ∧ 2 * w.capacity ≤ w'.capacity)) ∧ DoublesOps m ops w'

/-- The writer stands where the buffer does. -/
structure Tracks (w : PointerWriter) (a : BinaryWriter) (s : Doubling) : Prop where
  represents : Represents w a
  size_eq : a.size = s.size
  capacity_eq : a.capacity = s.capacity
  growths_eq : w.allocations = s.growths

variable {m : Allocator} {w w' : PointerWriter} {a a' : BinaryWriter} {s : Doubling}

theorem tracks_fresh : Tracks .fresh .empty .fresh := ⟨.fresh, rfl, rfl, rfl⟩

theorem capacity_ensure (a : BinaryWriter) (n : Nat) :
    (a.ensure n).capacity =
      if a.capacity < a.size + n then max 8 (max (a.size + n) (a.capacity * 2)) else a.capacity := by
  unfold BinaryWriter.ensure BinaryWriter.reserve
  split_ifs with hfull hgrow
  · rfl
  · omega
  · rfl

/-- The block is reallocated where there is no room. -/
theorem allocations_ensure (h : Represents w a) (n : Nat) :
    (w.ensure m n).allocations =
      if a.capacity < a.size + n then w.allocations + 1 else w.allocations := by
  have hfull : w.end_ < w.p_ + n ↔ a.capacity < a.size + n := by
    rw [h.end_eq, h.p_eq]
    omega
  unfold PointerWriter.ensure PointerWriter.reserve
  rw [h.capacity_eq, h.size_eq]
  by_cases hlt : a.capacity < a.size + n
  · rw [if_pos (hfull.mpr hlt), if_pos hlt, if_pos (by omega)]
  · rw [if_neg (mt hfull.mp hlt), if_neg hlt]

theorem allocations_store {bs : Bytes} (h : w.store bs = some w') :
    w'.allocations = w.allocations := by
  unfold PointerWriter.store at h
  split_ifs at h
  rw [← Option.some.inj h]

theorem allocations_writeTabs : ∀ {n : Nat} {w : PointerWriter}, w.writeTabs n = some w' →
    w'.allocations = w.allocations
  | 0, w, h => by rw [← Option.some.inj h]
  | n + 1, w, h => by
    obtain ⟨w₁, hstore, hrest⟩ := Option.bind_eq_some_iff.mp h
    rw [allocations_writeTabs hrest, allocations_store hstore]

/-- An append of `n` bytes makes room for them first. -/
theorem Tracks.append (h : Tracks w a s) {n : Nat} (hr : Represents w' a')
    (hsize : a'.size = a.size + n) (hcapacity : a'.capacity = (a.ensure n).capacity)
    (hallocations : w'.allocations = (w.ensure m n).allocations) :
    Tracks w' a' (s.push 8 n) := by
  rw [capacity_ensure] at hcapacity
  rw [allocations_ensure h.represents] at hallocations
  rw [h.size_eq, h.capacity_eq] at hcapacity hallocations
  rw [h.size_eq] at hsize
  rw [h.growths_eq] at hallocations
  rcases Nat.lt_or_ge s.capacity (s.size + n) with hfull | hroom
  · rw [if_pos hfull] at hcapacity hallocations
    rw [Doubling.push_of_full hfull]
    exact ⟨hr, hsize, hcapacity, hallocations⟩
  · rw [if_neg (Nat.not_lt_of_le hroom)] at hcapacity hallocations
    rw [Doubling.push_of_room hroom]
    exact ⟨hr, hsize, hcapacity, hallocations⟩

/-- A write makes room for its bytes, once. -/
theorem ensure_of_writes (h : Represents w a) {op : WriterOp} (hop : op.Writes)
    (hrun : op.run m w = some w') :
    (op.apply a).capacity = (a.ensure op.bytes.length).capacity ∧
      w'.allocations = (w.ensure m op.bytes.length).allocations := by
  cases op with
  | writeNumber T v hv =>
    rw [WriterOp.length_bytes]
    have hstore : (w.ensure m T.size).store (leBytesInt T.size v) = some w' := hrun
    exact ⟨rfl, allocations_store hstore⟩
  | writeType type =>
    have hstore : (w.ensure m 1).store (leBytesInt 1 type.value) = some w' := hrun
    exact ⟨rfl, allocations_store hstore⟩
  | writeChar ch =>
    have hstore : (w.ensure m 1).store [ch] = some w' := hrun
    exact ⟨rfl, allocations_store hstore⟩
  | writeBytes data =>
    have hstore : (w.ensure m data.length).store data = some w' := hrun
    exact ⟨rfl, allocations_store hstore⟩
  | writeString str =>
    -- the length is that up to the first zero
    have hstr : str.take (strlen str) = str.takeWhile (· != 0) :=
      (List.prefix_iff_eq_take.mp (List.takeWhile_prefix _)).symm
    rw [WriterOp.run, PointerWriter.writeString, hstr] at hrun
    have hstore : (w.ensure m (str.takeWhile (· != 0)).length).store (str.takeWhile (· != 0)) =
        some w' := hrun
    exact ⟨rfl, allocations_store hstore⟩
  | writeIndent n =>
    rw [WriterOp.length_bytes]
    rw [WriterOp.run, PointerWriter.writeIndent] at hrun
    rw [WriterOp.apply, BinaryWriter.writeIndent, WriterOp.readSize]
    by_cases hn : 0 < n
    · rw [if_pos hn] at hrun ⊢
      exact ⟨rfl, allocations_writeTabs hrun⟩
    -- no room is made for an indentation of zero or less, and none is needed
    · have hzero : n.toNat = 0 := Int.toNat_of_nonpos (Int.not_lt.mp hn)
      have hfits := a.fits
      have hroom : ¬ a.capacity < a.size + 0 := Nat.not_lt_of_le hfits
      rw [if_neg hn] at hrun ⊢
      rw [hzero, capacity_ensure, allocations_ensure h, if_neg hroom, if_neg hroom,
        Option.some.inj hrun]
      exact ⟨rfl, rfl⟩
  | reserve capacity => exact hop.elim
  | ensure size => exact hop.elim

/-- A write is an append. -/
theorem Tracks.run (h : Tracks w a s) {op : WriterOp} (hop : op.Writes) :
    ∃ w', op.run m w = some w' ∧ Tracks w' (op.apply a) (s.push 8 op.bytes.length) := by
  obtain ⟨w', hrun, hr⟩ := op.run_represents (m := m) h.represents
  have hsize : (op.apply a).size = a.size + op.bytes.length := by
    rw [BinaryWriter.size, op.data_apply, List.length_append, BinaryWriter.size]
  obtain ⟨hcapacity, hallocations⟩ := ensure_of_writes h.represents hop hrun
  exact ⟨w', hrun, h.append hr hsize hcapacity hallocations⟩

/-- So are any number of writes, and the blocks that they move are those of the buffer. -/
theorem Tracks.runOps (h : Tracks w a s) {ops : List WriterOp} (hops : ∀ op ∈ ops, op.Writes) :
    ∃ w', LuaBinaryTable.runOps m ops w = some w' ∧
      Tracks w' (applyOps ops a) (s.pushes 8 (ops.map fun op => op.bytes.length)) ∧
      movedOps m ops w + s.moved = (s.pushes 8 (ops.map fun op => op.bytes.length)).moved := by
  induction ops generalizing w a s with
  | nil => exact ⟨w, rfl, h, Nat.zero_add _⟩
  | cons op ops ih =>
    obtain ⟨w₁, hop, h₁⟩ := h.run (m := m) (hops op (List.mem_cons_self ..))
    obtain ⟨w', hrun, h', hmoved⟩ := ih h₁ fun op' hop' => hops op' (List.mem_cons_of_mem _ hop')
    refine ⟨w', ?_, h', ?_⟩
    · rw [LuaBinaryTable.runOps, hop]
      exact hrun
    · have hpush := s.moved_push 8 op.bytes.length
      rw [← h₁.growths_eq, ← h.growths_eq, ← h.capacity_eq, ← h.represents.capacity_eq] at hpush
      rw [movedOps, hop, List.map_cons, Doubling.pushes_cons, ← hmoved, hpush]
      show (if w₁.allocations = w.allocations then 0 else w.capacity) + movedOps m ops w₁ +
        s.moved = _
      omega

/-- Each reallocation doubles the block. -/
theorem Tracks.doublesOps (h : Tracks w a s) {ops : List WriterOp} (hops : ∀ op ∈ ops, op.Writes) :
    DoublesOps m ops w := by
  induction ops generalizing w a s with
  | nil => trivial
  | cons op ops ih =>
    intro w' hrun
    obtain ⟨w₁, hop, h₁⟩ := h.run (m := m) (hops op (List.mem_cons_self ..))
    cases hrun.symm.trans hop
    refine ⟨?_, ih h₁ fun op' hop' => hops op' (List.mem_cons_of_mem _ hop')⟩
    rw [h₁.growths_eq, h.growths_eq, h₁.represents.capacity_eq, h₁.capacity_eq,
      h.represents.capacity_eq, h.capacity_eq]
    exact s.push_doubles 8 op.bytes.length

/-- **The cost of writing**: after any writes to a fresh writer the block is at most twice as
large as what has been written, or of eight bytes; every reallocation on the way has at least
doubled it, so that there are few; and the blocks that were moved are no larger, together, than
the last. -/
theorem runOps_growth (m : Allocator) {ops : List WriterOp} (hops : ∀ op ∈ ops, op.Writes) :
    ∃ w, runOps m ops .fresh = some w ∧ w.size = (ops.flatMap WriterOp.bytes).length ∧
      w.capacity ≤ max 8 (2 * w.size) ∧ movedOps m ops .fresh ≤ w.capacity ∧
      (w.allocations ≠ 0 → 8 * 2 ^ w.allocations ≤ 2 * w.capacity) ∧ DoublesOps m ops .fresh := by
  obtain ⟨w, hrun, h, hmoved⟩ := tracks_fresh.runOps (m := m) hops
  obtain ⟨_, hpaid, hgrowths, hcapacity⟩ :=
    Doubling.paid_pushes (ops.map fun op => op.bytes.length) (@Doubling.paid_fresh 8)
  have hsize := h.represents.size_eq
  have hcap := h.represents.capacity_eq
  refine ⟨w, hrun, ?_, ?_, ?_, ?_, tracks_fresh.doublesOps hops⟩
  · rw [hsize, BinaryWriter.size, data_applyOps]
    rfl
  · rw [hsize, hcap, h.size_eq, h.capacity_eq]
    exact hcapacity
  · rw [hcap, h.capacity_eq]
    exact hmoved.le.trans hpaid
  · rw [hcap, h.capacity_eq, h.growths_eq]
    exact hgrowths

/-- Blocks of zeroes. -/
def Allocator.zeroed : Allocator where
  address n := n + 1
  garbage _ _ := 0
  address_pos n := Nat.succ_pos n

/-- One byte, and twelve more. -/
theorem runOps_growth_bytes :
    ∃ w, runOps .zeroed [.writeChar 98, .writeBytes (List.replicate 12 116)] .fresh = some w ∧
      w.size = 13 ∧ w.capacity ≤ max 8 (2 * w.size) ∧
      movedOps .zeroed [.writeChar 98, .writeBytes (List.replicate 12 116)] .fresh ≤ w.capacity ∧
      (w.allocations ≠ 0 → 8 * 2 ^ w.allocations ≤ 2 * w.capacity) ∧
      DoublesOps .zeroed [.writeChar 98, .writeBytes (List.replicate 12 116)] .fresh := by
  have hops : ∀ op ∈ [WriterOp.writeChar 98, .writeBytes (List.replicate 12 116)], op.Writes := by
    intro op hop
    rcases List.mem_pair.mp hop with rfl | rfl <;> exact trivial
  exact runOps_growth .zeroed hops

end LuaBinaryTable
