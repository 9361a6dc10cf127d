import LuaBinaryTable.BinaryWriter.Equiv.Growth
import LuaBinaryTable.RoundTrip.Size

/-!
# The buffer of a file

`writeBinaryTable` reserves four bytes, and those of the strings and of the body, for a file that
has eight bytes of header and two more for every string.  So the buffer grows after all, once, and
is allocated twice whatever the value is: `writeBinaryTable_buffer`.
-/

namespace LuaBinaryTable

/-! ### The operations on the stream -/

/-- A number that is cast to an unsigned type of `size` bytes. -/
def WriterOp.writeUnsigned (size n : Nat) : WriterOp :=
  .writeNumber ⟨size, false⟩ ((n % 256 ^ size : Nat) : Int)
    ⟨Int.natCast_nonneg _, by exact_mod_cast Nat.mod_lt n (Nat.pow_pos (by decide))⟩

/-- What `StringTable::write` writes behind the number of strings. -/
def stringOps (strs : List Bytes) : List WriterOp :=
  strs.flatMap fun s => [.writeUnsigned stringLengthSize s.length, .writeBytes s]

/-- What `writeBinaryTable` writes to the stream. -/
def fileWrites (strs : List Bytes) (body : Bytes) : List WriterOp :=
  .writeUnsigned 2 magicNumber :: .writeUnsigned 2 luabtVersion ::
    .writeUnsigned stringPoolLengthSize strs.length :: (stringOps strs ++ [.writeBytes body])

/-- The room that it reserves for that. -/
def reserved (strs : List Bytes) (body : Bytes) : Nat :=
  4 + (strs.map List.length).sum + body.length

/-- The operations on the stream of a file, the reservation first. -/
def fileOps (strs : List Bytes) (body : Bytes) : List WriterOp :=
  .reserve (reserved strs body) :: fileWrites strs body

theorem WriterOp.bytes_writeUnsigned (size n : Nat) :
    (writeUnsigned size n).bytes = leBytesInt size n := leBytesInt_mod size n

theorem WriterOp.apply_writeUnsigned (size n : Nat) (a : BinaryWriter) :
    (writeUnsigned size n).apply a = a.writeNumber size n := by
  show a.writeNumber size ((n % 256 ^ size : Nat) : Int) = a.writeNumber size n
  simp only [BinaryWriter.writeNumber, leBytesInt_mod]

theorem bytes_stringOps (strs : List Bytes) :
    (stringOps strs).flatMap WriterOp.bytes = Doc.encodePool strs := by
  induction strs with
  | nil => rfl
  | cons s strs ih =>
    rw [stringOps, List.flatMap_cons, List.flatMap_append]
    show _ ++ (stringOps strs).flatMap WriterOp.bytes = _
    rw [ih, List.flatMap_cons, List.flatMap_singleton, WriterOp.bytes_writeUnsigned]
    rfl

theorem bytes_fileWrites (strs : List Bytes) (body : Bytes) :
    (fileWrites strs body).flatMap WriterOp.bytes = Doc.encodeHead strs ++ body := by
  have hbody : [WriterOp.writeBytes body].flatMap WriterOp.bytes = body := List.append_nil body
  simp only [fileWrites, List.flatMap_cons, List.flatMap_append, WriterOp.bytes_writeUnsigned,
    bytes_stringOps, hbody, Doc.encodeHead, List.append_assoc]

theorem writes_fileWrites (strs : List Bytes) (body : Bytes) :
    ∀ op ∈ fileWrites strs body, op.Writes := by
  intro op hop
  simp only [fileWrites, stringOps, List.mem_cons, List.mem_append, List.mem_flatMap,
    List.not_mem_nil, or_false] at hop
  rcases hop with rfl | rfl | rfl | ⟨s, -, rfl | rfl⟩ | rfl <;> exact trivial

namespace Doc

theorem writePool_eq {pool : Pool} {strs : List Bytes} (hp : pool.Holds strs) :
    ∀ (pre post : List Bytes) (w : BinaryWriter), strs = pre ++ post →
      writePool pool post.length (pre.length + 1) w = applyOps (stringOps post) w
  | _, [], _, _ => rfl
  | pre, s :: post, w, h => by
    have hget := hp.get_index2string h
    have hrec := writePool_eq hp (pre ++ [s]) post
      ((w.writeNumber stringLengthSize s.length).writeBytes s) (by simp [h])
    rw [List.length_append, List.length_singleton] at hrec
    simp only [List.length_cons, writePool, hget]
    rw [hrec]
    show _ = applyOps (stringOps post)
      (((WriterOp.writeUnsigned stringLengthSize s.length).apply w).writeBytes s)
    rw [WriterOp.apply_writeUnsigned]

/-- The stream of a complete document goes through the operations. -/
theorem stream_eq {d : Doc} (hc : d.Complete) (hlen : (d.collect []).length < 2 ^ 31) :
    d.stream = applyOps (fileOps (d.collect []) (d.encode (d.collect []))) .empty := by
  obtain ⟨hp, hs⟩ := emit_eq hlen d .start [] hc .start (List.prefix_refl _)
  have hbody : (d.emit .start).stream.data = d.encode (d.collect []) := hs
  have hpool := fun w => writePool_eq hp [] (d.collect []) w rfl
  rw [List.length_nil, Nat.zero_add] at hpool
  have hreserve : (WriterOp.reserve (reserved (d.collect []) (d.encode (d.collect [])))).apply .empty =
    BinaryWriter.empty.reserve
      (4 + ((d.collect []).map List.length).sum + (d.encode (d.collect [])).length) := rfl
  simp only [fileOps, fileWrites, applyOps_cons, applyOps_append, WriterOp.apply_writeUnsigned,
    hreserve, stream, BinaryWriter.size, hbody, hp.cacheSize_eq, hp.size_eq, hpool]
  rfl

end Doc

/-! ### The buffer -/

theorem tracks_reserve (m : Allocator) {n : Nat} (hn : 0 < n) :
    Tracks (PointerWriter.fresh.reserve m n) (BinaryWriter.empty.reserve n) ⟨0, n, 1, 0⟩ := by
  have hempty : BinaryWriter.empty.capacity < n := hn
  have hfresh : PointerWriter.fresh.capacity < n := hn
  refine ⟨.reserve .fresh n, ?_, ?_, ?_⟩
  · rw [BinaryWriter.size, BinaryWriter.data_reserve]
    rfl
  · rw [BinaryWriter.reserve, dif_pos hempty]
  · rw [PointerWriter.reserve, if_pos hfresh]
    rfl

/-- Where the body has two bytes for every string, the buffer doubles once. -/
theorem runOps_fileOps (m : Allocator) {strs : List Bytes} {body : Bytes}
    (hbody : 2 * strs.length ≤ body.length) :
    ∃ w, runOps m (fileOps strs body) .fresh = some w ∧
      Represents w (applyOps (fileOps strs body) .empty) ∧
      w.allocations = 2 ∧ w.capacity = 2 * reserved strs body := by
  have hsum : ((fileWrites strs body).map fun op => op.bytes.length).sum =
      8 + Doc.poolSize strs + body.length := by
    rw [← List.length_flatMap, bytes_fileWrites, List.length_append, Doc.length_encodeHead]
  have hpool := Doc.poolSize_eq strs
  have hreserved : reserved strs body = 4 + (strs.map List.length).sum + body.length := rfl
  obtain ⟨w, hrun, h, -⟩ :=
    (tracks_reserve m (n := reserved strs body) (by omega)).runOps (m := m)
      (writes_fileWrites strs body)
  obtain ⟨hcapacity, hgrowths⟩ := @Doubling.pushes_once 8
    ((fileWrites strs body).map fun op => op.bytes.length) ⟨0, reserved strs body, 1, 0⟩
    (Nat.zero_le _) (by rw [hsum]; dsimp only; omega) (by rw [hsum]; dsimp only; omega)
  refine ⟨w, hrun, h.represents, ?_, ?_⟩
  · rw [h.growths_eq, hgrowths]
  · rw [h.represents.capacity_eq, h.capacity_eq, hcapacity]
    dsimp only
    omega

variable {env : Env} {h₀ : List LuaTable}

/-- `writeValue` of `writeBinaryTable`: it writes the body above a new string table. -/
def writeBody (env : Env) (fuel : Nat) (S : List LuaValue) (T : Thread) (h : List LuaTable)
    (idx : Int) : Run LuaState (Bool × WriteState) :=
  let (strTable, L) := StringTable.create (.entry S h T)
  writeValue env fuel (absIndex S.length idx) ⟨L, strTable, .empty⟩

/-- A run that returns a file has written its body, and the stream of it is that of the layout. -/
theorem exists_fileStream (hperm : env.sort.Permutes) {S : List LuaValue} {idx : Int}
    (hidx : ValidIndex S idx) (ha : Acyclic h₀ (valueAt S idx)) {T : Thread} {fuel : Nat}
    (hc : (layout env h₀ fuel (valueAt S idx)).Complete) :
    ∃ s, writeBody env fuel S T h₀ idx = .returns (true, s) ∧
      (fileStream s).2 = (layout env h₀ fuel (valueAt S idx)).stream ∧
        s.stream = ((layout env h₀ fuel (valueAt S idx)).emit .start).stream := by
  obtain ⟨hidx', hval⟩ := hidx.withStrings h₀
  have hw := writes_writeValue hperm fuel (withStrings h₀ S) (h₀ ++ [.empty, .empty]) T
    (max S.length (S.length + 2)) _ .empty .empty (absIndex S.length idx) (stringsAt_create S) hidx'
    (by rw [hval]; exact ha.closed) (le_max_right _ _)
  rw [hval, show (⟨.empty, .empty⟩ : EmitState) = .start from rfl] at hw
  simp only [writeBody, LuaState.entry, create_mk]
  generalize layout env h₀ fuel (valueAt S idx) = d at *
  generalize writeValue env fuel (absIndex S.length idx) _ = x at *
  cases x with
  | returns a =>
    obtain ⟨ok, s⟩ := a
    cases ok with
    | true =>
      obtain ⟨_, hstream, hsame, h', hL, hp, _⟩ := hw
      refine ⟨s, rfl, ?_, hstream⟩
      rw [show s = ⟨s.L, s.strTable, s.stream⟩ from rfl, hL, hstream,
        fileStream_eq hp hsame.1 hsame.2]
      simp only [withStrings, List.length_cons]
      omega
    -- only a document with something that cannot be written fails
    | false =>
      obtain ⟨⟨_, hstop, _⟩, _⟩ := hw
      cases hstop.symm.trans hc
  | raises s => exact hw.elim
  | diverges => cases hw.symm.trans hc

/-- **The buffer of a file**: whatever value is written, the stream is allocated twice, first with
the room reserved, which is short of four bytes and two more for every string, and then with twice
as much, which is enough. -/
theorem writeBinaryTable_buffer (m : Allocator) (hperm : env.sort.Permutes) {S : List LuaValue}
    {idx : Int} (hidx : ValidIndex S idx) (ha : Acyclic h₀ (valueAt S idx)) {T : Thread}
    {fuel : Nat} {e : Bytes}
    (hw : written (writeBinaryTable env fuel (.entry S h₀ T) idx) = some e) {strs : List Bytes}
    (hstrs : (layout env h₀ fuel (valueAt S idx)).collect [] = strs) (hpool : strs.length < 2 ^ 31) :
    ∃ s w, writeBody env fuel S T h₀ idx = .returns (true, s) ∧
      (fileStream s).2.data = e ∧ Represents w (fileStream s).2 ∧
      runOps m (fileOps strs s.stream.data) .fresh = some w ∧ w.content = e ∧
      w.allocations = 2 ∧ w.capacity = 2 * reserved strs s.stream.data ∧
      reserved strs s.stream.data + 4 + 2 * strs.length = e.length := by
  subst hstrs
  obtain ⟨hc, rfl⟩ := layout_of_writeBinaryTable hperm hidx ha hw
  obtain ⟨s, hbody, hstream, hdata⟩ := exists_fileStream (T := T) hperm hidx ha hc
  -- the bytes are those of the document, so the sizes are its sizes
  generalize layout env h₀ fuel (valueAt S idx) = d at *
  have htwo := d.two_mul_collect_le (d.collect []) []
  rw [List.length_nil, Nat.mul_zero, Nat.zero_add] at htwo
  obtain ⟨w, hrun, h, hallocations, hcapacity⟩ := runOps_fileOps m htwo
  rw [← Doc.stream_eq hc hpool] at h
  have hencode : s.stream.data = d.encode (d.collect []) := by
    rw [hdata]
    exact (Doc.emit_eq hpool d .start [] hc .start (List.prefix_refl _)).2
  refine ⟨s, w, hbody, by rw [hstream]; rfl, hstream ▸ h, ?_⟩
  rw [hencode]
  refine ⟨hrun, h.content_eq, hallocations, hcapacity, ?_⟩
  rw [Doc.file_eq hc hpool, Doc.length_encodeFile, Doc.poolSize_eq, reserved]
  omega

/-- The stream for `flagTable`. -/
theorem writeBinaryTable_buffer_flagTable :
    ∃ s w, writeBody .plain 3 [.table 0] (.fresh .nil) [flagTable] (-1) = .returns (true, s) ∧
      Represents w (fileStream s).2 ∧ w.allocations = 2 := by
  obtain ⟨s, w, hbody, -, h, -, -, hallocations, -⟩ := @writeBinaryTable_buffer .plain [flagTable]
    .zeroed insertionSort_permutes [.table 0] (-1) (validIndex_top _ [])
    portable_flagTable.acyclic (.fresh .nil) 3 [98, 116, 1, 0, 1, 0, 0, 0, 1, 0, 97, 21, 1, 13, 1, 2]
    written_flagTable [[97]] collect_flagTable (by decide)
  exact ⟨s, w, hbody, h, hallocations⟩

end LuaBinaryTable
