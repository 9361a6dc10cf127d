import LuaBinaryTable.BinaryReader.Ahead
import LuaBinaryTable.BinaryWriter.Equiv.Pointers
import LuaBinaryTable.BinaryWriter.Operations

/-!
# Writing and reading back

Whatever operations a `BinaryWriter` goes through, its content is their bytes in order, and a
`BinaryReader` over it that does the matching reads gets their values (`runOps_readOps`).
-/

namespace LuaBinaryTable

/-! ### Capacity -/

namespace BinaryWriter

theorem capacity_le_reserve (a : BinaryWriter) (capacity : Nat) :
    a.capacity ≤ (a.reserve capacity).capacity := by
  rw [reserve]
  split_ifs with hlt
  · exact hlt.le
  · exact le_rfl

theorem capacity_le_ensure (a : BinaryWriter) (size : Nat) :
    a.capacity ≤ (a.ensure size).capacity := by
  rw [ensure]
  split_ifs
  · exact a.capacity_le_reserve _
  · exact le_rfl

end BinaryWriter

namespace WriterOp

/-! ### One operation -/

variable {m : Allocator} {w : PointerWriter} {a : BinaryWriter}

theorem data_apply (op : WriterOp) (a : BinaryWriter) : (op.apply a).data = a.data ++ op.bytes := by
  cases op with
  | writeNumber T v h => exact BinaryWriter.data_writeNumber T.size v a
  | writeType type => exact BinaryWriter.data_writeType type a
  | writeChar ch => exact BinaryWriter.data_writeChar ch a
  | writeBytes data => exact BinaryWriter.data_writeBytes data a
  | writeString str => exact BinaryWriter.data_writeBytes _ a
  | writeIndent n => exact BinaryWriter.data_writeIndent n a
  | reserve capacity => simp only [apply, bytes, BinaryWriter.data_reserve, List.append_nil]
  | ensure size => simp only [apply, bytes, BinaryWriter.data_ensure, List.append_nil]

/-- No operation gives room back. -/
theorem capacity_le_apply (op : WriterOp) (a : BinaryWriter) :
    a.capacity ≤ (op.apply a).capacity := by
  cases op with
  | writeNumber T v h => exact a.capacity_le_ensure T.size
  | writeType type => exact a.capacity_le_ensure 1
  | writeChar ch => exact a.capacity_le_ensure 1
  | writeBytes data => exact a.capacity_le_ensure data.length
  | writeString str => exact a.capacity_le_ensure _
  | writeIndent n =>
    rw [apply, BinaryWriter.writeIndent]
    split_ifs
    · exact a.capacity_le_ensure n.toNat
    · exact le_rfl
  | reserve capacity => exact a.capacity_le_reserve capacity
  | ensure size => exact a.capacity_le_ensure size

/-- No operation stores outside of the block. -/
theorem run_represents (h : Represents w a) (op : WriterOp) :
    ∃ w', op.run m w = some w' ∧ Represents w' (op.apply a) := by
  cases op with
  | writeNumber T v _ => exact h.writeNumber T.size v
  | writeType type => exact h.writeNumber 1 type.value
  | writeChar ch => exact h.writeChar ch
  | writeBytes data => exact h.writeBytes data
  | writeString str =>
    have hstr : str.take (strlen str) = str.takeWhile (· != 0) :=
      (List.prefix_iff_eq_take.mp (List.takeWhile_prefix _)).symm
    rw [run, PointerWriter.writeString, hstr]
    exact h.writeBytes _
  | writeIndent n => exact h.writeIndent n
  | reserve capacity => exact ⟨_, rfl, h.reserve capacity⟩
  | ensure size => exact ⟨_, rfl, h.ensure size⟩

theorem length_bytes (op : WriterOp) : op.bytes.length = op.readSize := by
  cases op with
  | writeNumber T v h => exact length_leBytesInt T.size v
  | writeIndent n => exact List.length_replicate
  | _ => rfl

/-- A value of a type is recovered from its bytes. -/
theorem decode_leBytesInt {T : NumberType} {v : Int} (h : T.Holds v) :
    T.decode (leBytesInt T.size v) = v := by
  unfold NumberType.Holds at h
  unfold NumberType.decode
  split_ifs at h ⊢
  · exact leInt_leBytesInt h.1 h.2
  · obtain ⟨n, rfl⟩ := Int.eq_ofNat_of_zero_le h.1
    rw [leNat_leBytesInt (by exact_mod_cast h.2)]

/-- The matching read gets the value, and goes past the bytes. -/
theorem read_of_ahead (op : WriterOp) {r : BinaryReader} (h : r.Ahead op.bytes)
    (hle : r.p + op.bytes.length ≤ r.data.length) :
    op.read r = (op.value, r.skip op.bytes.length) := by
  have hnumber := BinaryReader.readNumber_of_ahead h
  have hbytes := BinaryReader.readBytes_of_le h hle
  rw [length_bytes] at hnumber hbytes ⊢
  cases op with
  | writeNumber T v hv =>
    simp only [read, hnumber]
    rw [bytes, decode_leBytesInt hv]
    rfl
  | writeType type =>
    have htag : leNat [UInt8.ofNat type.value] = type.value := by
      rw [leNat, leNat, BinaryType.toNat_ofNat_value]
      rfl
    simp only [read, BinaryReader.readType, show r.readNumber 1 = _ from hnumber]
    rw [bytes, htag]
    rfl
  | writeChar ch =>
    simp only [read, hnumber]
    rfl
  | writeBytes data =>
    simp only [read, hbytes]
    rfl
  | writeString str =>
    simp only [read, hbytes]
    rfl
  | writeIndent n =>
    simp only [read, hbytes]
    rfl
  | reserve capacity => rfl
  | ensure size => rfl

end WriterOp

/-! ### Sequences of operations -/

variable {m : Allocator}

/-- The operations one after the other, without pointers. -/
def applyOps (ops : List WriterOp) (a : BinaryWriter) : BinaryWriter :=
  ops.foldl (fun a op => op.apply a) a

theorem data_applyOps (ops : List WriterOp) (a : BinaryWriter) :
    (applyOps ops a).data = a.data ++ ops.flatMap WriterOp.bytes := by
  induction ops generalizing a with
  | nil => exact (List.append_nil _).symm
  | cons op ops ih =>
    show (applyOps ops (op.apply a)).data = _
    rw [ih, WriterOp.data_apply, List.append_assoc, List.flatMap_cons]

theorem applyOps_cons (op : WriterOp) (ops : List WriterOp) (a : BinaryWriter) :
    applyOps (op :: ops) a = applyOps ops (op.apply a) := rfl

theorem applyOps_append (ops ops' : List WriterOp) (a : BinaryWriter) :
    applyOps (ops ++ ops') a = applyOps ops' (applyOps ops a) := List.foldl_append

theorem capacity_le_applyOps (ops : List WriterOp) (a : BinaryWriter) :
    a.capacity ≤ (applyOps ops a).capacity := by
  induction ops generalizing a with
  | nil => exact le_rfl
  | cons op ops ih => exact (op.capacity_le_apply a).trans (ih (op.apply a))

theorem runOps_represents {w : PointerWriter} {a : BinaryWriter} (h : Represents w a)
    (ops : List WriterOp) :
    ∃ w', runOps m ops w = some w' ∧ Represents w' (applyOps ops a) := by
  induction ops generalizing w a with
  | nil => exact ⟨w, rfl, h⟩
  | cons op ops ih =>
    obtain ⟨w₁, hop, h₁⟩ := op.run_represents (m := m) h
    obtain ⟨w', hrun, h'⟩ := ih h₁
    refine ⟨w', ?_, h'⟩
    rw [runOps, hop]
    exact hrun

/-- The reads that match the operations get their values out of the bytes of them. -/
theorem readOps_of_ahead {r : BinaryReader} (ops : List WriterOp)
    (h : r.Ahead (ops.flatMap WriterOp.bytes))
    (hle : r.p + (ops.flatMap WriterOp.bytes).length ≤ r.data.length) :
    readOps ops r =
      (ops.map WriterOp.value, r.skip (ops.flatMap WriterOp.bytes).length) := by
  induction ops generalizing r with
  | nil => rfl
  | cons op ops ih =>
    rw [List.flatMap_cons] at h hle ⊢
    rw [List.length_append] at hle ⊢
    have hop := op.read_of_ahead h.left (by omega)
    have hops := ih h.right (by
      show r.p + op.bytes.length + _ ≤ r.data.length
      omega)
    simp only [readOps, hop, hops, BinaryReader.skip_skip, List.map_cons]

/-- Any operations from a fresh writer, with any that follow: none stores outside of the block, the
size stays within the capacity, which never shrinks, and the content is the bytes of the operations.
A reader over the content that does the matching reads gets the values, finds itself at the end
exactly where no byte follows, and has the bytes left that the next read asks for. -/
theorem runOps_readOps (m : Allocator) (ops next : List WriterOp) :
    ∃ w w', runOps m ops .fresh = some w ∧ runOps m (ops ++ next) .fresh = some w' ∧
      w.size ≤ w.capacity ∧ w.capacity ≤ w'.capacity ∧
      w.content = ops.flatMap WriterOp.bytes ∧
      ∃ r, readOps ops ⟨w'.content, 0⟩ = (ops.map WriterOp.value, r) ∧
        (r.isEmpty = true ↔ next.flatMap WriterOp.bytes = []) ∧
        ∀ op ops', next = op :: ops' → r.p + op.readSize ≤ r.data.length := by
  obtain ⟨w, hrun, h⟩ := runOps_represents (m := m) .fresh ops
  obtain ⟨w', hrun', h'⟩ := runOps_represents (m := m) .fresh (ops ++ next)
  have hcontent : w'.content = ops.flatMap WriterOp.bytes ++ next.flatMap WriterOp.bytes := by
    rw [h'.content_eq, data_applyOps, List.flatMap_append]
    rfl
  -- the reader has everything that was written, later operations included, of which it reads the
  -- front
  have hread := @readOps_of_ahead ⟨w'.content, 0⟩ ops
    (by rw [hcontent]; exact List.prefix_append _ _)
    (by rw [hcontent, List.length_append, Nat.zero_add]; exact Nat.le_add_right _ _)
  refine ⟨w, w', hrun, hrun', ?_, ?_, ?_, ?_⟩
  · rw [h.size_eq, h.capacity_eq]
    exact (applyOps ops .empty).fits
  · rw [h.capacity_eq, h'.capacity_eq, applyOps_append]
    exact capacity_le_applyOps next _
  · rw [h.content_eq, data_applyOps]
    rfl
  · refine ⟨_, hread, ?_, ?_⟩
    · rw [hcontent]
      simp only [BinaryReader.isEmpty, BinaryReader.skip, decide_eq_true_eq, List.length_append,
        Nat.zero_add, ← List.length_eq_zero_iff]
      omega
    · rintro op ops' rfl
      rw [hcontent]
      show 0 + (ops.flatMap WriterOp.bytes).length + op.readSize ≤
        (ops.flatMap WriterOp.bytes ++ (op :: ops').flatMap WriterOp.bytes).length
      rw [List.flatMap_cons, List.length_append, List.length_append, op.length_bytes]
      omega

end LuaBinaryTable
