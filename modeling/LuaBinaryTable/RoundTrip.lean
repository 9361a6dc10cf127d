import LuaBinaryTable.Document.Equiv.Copy
import LuaBinaryTable.Reader.Equiv.Clean
import LuaBinaryTable.Writer.Equiv.Clean

/-!
# The round trip of the format

What `writeBinaryTable` writes for a portable value, `parseBinaryTable` turns into a value of the
same content, provided that both find the slots they need on the stack (`parse_write_iff`).  The
encoder follows the layout of the value and the decoder the
document in the bytes, so the theorem is composed of what is proved about documents: the bytes of
the layout are read as the layout, nothing of it is refused, and it builds a copy of the value.
-/

namespace LuaBinaryTable

open Reader

variable {env : Env} {sizes : TableSizes} {limit : Nat}

/-- What is read of the file of a portable value, and what the decoder builds of it. -/
theorem readDocument_file (hperm : env.sort.Permutes) (hlimit : limit ≤ 2 ^ 31)
    (hsizes : Accepts sizes limit) {h : List LuaTable} {v : LuaValue} (hp : Portable limit h v)
    {fuel : Nat} {d : Doc} (hd : layout env h fuel v = d) (hc : d.Complete)
    (hpool : (d.collect []).length < limit) (suffix : Bytes) :
    d.file = d.encodeFile ∧
      readDocument (d.file ++ suffix) =
        .body (d.collect []) d ⟨d.file ++ suffix, d.file.length⟩ ∧
      (readDocument (d.file ++ suffix)).outcome sizes = .complete ∧
      ∀ h' : List LuaTable, SameFrom h'.length h (d.materialise h').2 v (d.materialise h').1 := by
  subst hd
  have hfile := Doc.file_eq hc (by omega)
  have hread := readDocument_encodeFile (by omega) (encodable_layout hperm hp.storable hc)
    (by omega) suffix
  rw [← hfile] at hread
  refine ⟨hfile, hread, ?_, same_materialise hperm hp hc⟩
  rw [hread, Reading.outcome, if_pos (hsizes.toInt32 hlimit hpool).1,
    Doc.outcome_eq_complete_iff]
  exact ⟨hc, legal_layout hperm hlimit hsizes hp.storable hc⟩

/-- A whole document that is accepted takes a slot for the pool and those of its value. -/
theorem slots_of_complete {rd : Reading} {strs : List Bytes} {d : Doc} {r : BinaryReader}
    (hrd : rd = .body strs d r) (ho : rd.outcome sizes = .complete) :
    rd.slots sizes = 1 + d.slots sizes := by
  subst hrd
  have hs : sizes (toInt32 strs.length) 0 = true := by
    by_contra hs
    rw [Reading.outcome, if_neg hs] at ho
    cases ho
  rw [Reading.outcome, if_pos hs] at ho
  have hpos := Doc.one_le_slots ho
  rw [Reading.slots, if_pos hs, ho, if_neg (by simp)]
  omega

/-- The decoder gets a copy of a portable value out of its file, whatever follows, and stops behind
the file.  It needs a slot for the pool and those of the document. -/
theorem parse_file (hperm : env.sort.Permutes) (hlimit : limit ≤ 2 ^ 31)
    (hsizes : Accepts sizes limit) {h : List LuaTable} {v : LuaValue} (hp : Portable limit h v)
    {fuel : Nat} (hc : (layout env h fuel v).Complete)
    (hpool : ((layout env h fuel v).collect []).length < limit) (suffix : Bytes)
    (S' : List LuaValue) (h' : List LuaTable) (T' : Thread) :
    ∃ s w, parseBinaryTable sizes (.entry S' h' T') ((layout env h fuel v).file ++ suffix) =
        .returns (1, s) ∧
      (¬ s.L.Overrun ↔ S'.length + (1 + (layout env h fuel v).slots sizes) ≤ T'.slots) ∧
      s.reader.p = (layout env h fuel v).file.length ∧ s.L.stack = w :: S' ∧
        SameFrom h'.length h s.L.heap v w := by
  obtain ⟨_, hread, ho, hsame⟩ :=
    readDocument_file hperm hlimit hsizes hp rfl hc hpool suffix
  have hd := decodes_entry sizes S' h' T' ((layout env h fuel v).file ++ suffix)
  cases hx : parseBinaryTable sizes (.entry S' h' T') ((layout env h fuel v).file ++ suffix) with
  | returns a =>
    have hover := overrun_iff sizes S' h' T' _ (n := a.1) (s := a.2) hx
    rw [slots_of_complete hread ho] at hover
    rw [hx] at hd
    -- of the ways a run can end only the first agrees with the document
    rcases hd with ⟨h1, _, strs, d, hbody, hL⟩ | ⟨_, ho', _⟩
    · obtain ⟨rfl, rfl, hr⟩ := Reading.body.inj (hread.symm.trans hbody)
      refine ⟨a.2, _, by rw [← h1], hover, by rw [← hr], congrArg LuaState.stack hL, ?_⟩
      have hcopy := hsame (h' ++ [poolTable ((layout env h fuel v).collect [])])
      rw [hL]
      exact hcopy.mono (by simp)
    · rw [ho] at ho'
      cases ho'
  | raises s =>
    rw [hx] at hd
    cases ho.symm.trans hd.1
  | diverges =>
    rw [hx] at hd
    cases ho.symm.trans hd

/-- The decoder reads back what the encoder wrote, whatever follows it: it returns 1, consumes the
bytes written, and pushes a value of the same content in tables of its own.  And neither of the two
writes behind the buffer of the stack. -/
def RoundTrips (sizes : TableSizes) (h : List LuaTable) (v : LuaValue) (e : Bytes) (L : LuaState)
    (suffix : Bytes) (S' : List LuaValue) (h' : List LuaTable) (T' : Thread) : Prop :=
  ¬ L.Overrun ∧ ∃ s w, parseBinaryTable sizes (.entry S' h' T') (e ++ suffix) = .returns (1, s) ∧
    ¬ s.L.Overrun ∧ s.reader.p = e.length ∧ s.L.stack = w :: S' ∧ SameFrom h'.length h s.L.heap v w

/-- The round trip succeeds exactly where the document fits the buffer of the encoder's stack and
the one of the decoder's. -/
theorem parse_write_iff (hperm : env.sort.Permutes) (hlimit : limit ≤ 2 ^ 31)
    (hsizes : Accepts sizes limit) {S : List LuaValue} {h : List LuaTable} {T : Thread}
    {idx : Int} (hidx : ValidIndex S idx) (hp : Portable limit h (valueAt S idx)) {fuel : Nat}
    {e : Bytes} {L : LuaState}
    (hw : writeBinaryTable env fuel (.entry S h T) idx = .returns (some e, L))
    (hpool : ((layout env h fuel (valueAt S idx)).collect []).length < limit)
    (suffix : Bytes) (S' : List LuaValue) (h' : List LuaTable) (T' : Thread) :
    RoundTrips sizes h (valueAt S idx) e L suffix S' h' T' ↔
      (layout env h fuel (valueAt S idx)).BufferFits env S.length T.slots ∧
        S'.length + (1 + (layout env h fuel (valueAt S idx)).slots sizes) ≤ T'.slots := by
  obtain ⟨hc, rfl⟩ := layout_of_writeBinaryTable hperm hidx hp.acyclic (congrArg written hw)
  obtain ⟨s, w, hr, hover, hend, hst, hsame⟩ :=
    parse_file hperm hlimit hsizes hp hc hpool suffix S' h' T'
  refine and_congr (overrun_of_layout hperm hidx hp.acyclic hw) ?_
  constructor
  · rintro ⟨s', w', hr', hover', _⟩
    rw [hr] at hr'
    cases hr'
    exact hover.mp hover'
  · intro hfits
    exact ⟨s, w, hr, hover.mpr hfits, hend, hst, hsame⟩

/-- A table with the value `true` under the key `"a"`. -/
def flagTable : LuaTable := LuaTable.empty.set (.string (bytesOf "a")) (.boolean true)

theorem portable_flagTable : Portable 2 [flagTable] (.table 0) := by
  refine .table (t := flagTable) rfl (by decide) ⟨0, fun i _ => ?_⟩ (fun e he => ?_) fun e he => ?_
  · have hget : flagTable.get (integer ↑(i + 1)) = .nil := rfl
    exact iff_of_false (not_not.mpr hget) (Nat.not_lt_zero i)
  all_goals
    obtain rfl := List.mem_singleton.mp he
    exact .scalar (by decide) (by simp) (by simp [bytesOf])

theorem written_flagTable :
    written (writeBinaryTable .plain 3 (.entry [.table 0] [flagTable] (.fresh .nil)) (-1)) =
      some [98, 116, 1, 0, 1, 0, 0, 0, 1, 0, 97, 21, 1, 13, 1, 2] := by decide +kernel

theorem complete_flagTable : (layout .plain [flagTable] 3 (.table 0)).Complete := by
  show _ = _
  decide

theorem collect_flagTable : (layout .plain [flagTable] 3 (.table 0)).collect [] = [[97]] := by
  decide

/-- The file of `flagTable`, followed by one more byte. -/
theorem parse_write_flagTable :
    ∃ L, writeBinaryTable .plain 3 (.entry [.table 0] [flagTable] (.fresh .nil)) (-1) =
        .returns (some [98, 116, 1, 0, 1, 0, 0, 0, 1, 0, 97, 21, 1, 13, 1, 2], L) ∧
      RoundTrips (fun _ _ => true) [flagTable] (.table 0)
        [98, 116, 1, 0, 1, 0, 0, 0, 1, 0, 97, 21, 1, 13, 1, 2] L [255] [.nil] [] (.fresh .nil) := by
  obtain ⟨L, hw⟩ := exists_state_of_written written_flagTable
  exact ⟨L, hw, (@parse_write_iff .plain (fun _ _ => true) 2 insertionSort_permutes (by decide)
    (fun _ _ => ⟨rfl, rfl⟩) [.table 0] [flagTable] (.fresh .nil) (-1) (validIndex_top _ [])
    portable_flagTable 3 _ L hw (by rw [valueAt_top, collect_flagTable]; decide) [255] [.nil] []
    (.fresh .nil)).mpr (by decide)⟩

/-! ### Deep nesting -/

/-- A table whose only key is a string has no element. -/
theorem contiguous_of_string {t : LuaTable} {s : Bytes} {v : LuaValue}
    (he : t.entries = [(.string s, v)]) : t.Contiguous := by
  refine ⟨0, fun i _ => iff_of_false (not_not.mpr ?_) (Nat.not_lt_zero i)⟩
  rw [LuaTable.get, he]
  rfl

theorem portable_nestedUnder (n : Nat) : ∀ m i : Nat, i + (m + 1) = n →
    Portable 2 (nestedUnder (.string [97]) n) (.table i) :=
  nestedUnder_induction rfl n (.scalar (by decide) (by simp) (by simp))
    fun ref t v ht he hv => by
      refine .table ht (by rw [he]; exact Nat.one_lt_two) (contiguous_of_string he) ?_ ?_ <;>
        intro e hm <;> rw [he] at hm <;> obtain rfl := List.mem_singleton.mp hm
      · exact .scalar (by simp [LuaValue.type]) (by simp) (by simp)
      · exact hv

/-- Thirty tables in one another, each under a name: the sorts make the buffer of the writer's stack
grow, and a reader needs more slots than a fresh Lua state has. -/
theorem layout_nestedUnder :
    (layout .plain (nestedUnder (.string [97]) 30) 31 (.table 0)).Complete ∧
      ((layout .plain (nestedUnder (.string [97]) 30) 31 (.table 0)).collect []).length < 2 ∧
      (layout .plain (nestedUnder (.string [97]) 30) 31 (.table 0)).BufferFits .plain 1
        freshSlots ∧
      freshSlots < 1 + (layout .plain (nestedUnder (.string [97]) 30) 31 (.table 0)).slots
        fun _ _ => true := by
  refine ⟨?_, ?_, ?_, ?_⟩
  · show _ = _
    decide +kernel
  all_goals decide +kernel

/-- Thirty tables in one another, each under a name: the reader in a fresh Lua state needs 62
slots. -/
theorem not_roundTrips_nested :
    Portable 2 (nestedUnder (.string [97]) 30) (.table 0) ∧
      ∃ e L, writeBinaryTable .plain 31
          (.entry [.table 0] (nestedUnder (.string [97]) 30) (.fresh .nil)) (-1) =
          .returns (some e, L) ∧ ¬ L.Overrun ∧
        ¬ RoundTrips (fun _ _ => true) (nestedUnder (.string [97]) 30) (.table 0) e L [] [] []
          (.fresh .nil) := by
  have hp := portable_nestedUnder 30 29 0 rfl
  have hn := @nested_nestedUnder (.string [97]) rfl 30 (by decide) 29 0 rfl
  obtain ⟨hc, hpool, hfits, hslots⟩ := layout_nestedUnder
  obtain ⟨h', _, hw⟩ := @writeBinaryTable_of_nested .plain _ insertionSort_permutes [.table 0] (-1)
    (validIndex_top _ []) 31 hn (.fresh .nil) 31 le_rfl
  rw [valueAt_top, if_pos hc] at hw
  refine ⟨hp, _, _, hw, not_overrun_iff.mpr hfits, ?_⟩
  rintro ⟨_, s, w, hr, hover, _⟩
  obtain ⟨s', w', hr', hover', _⟩ := @parse_file .plain (fun _ _ => true) 2 insertionSort_permutes
    (by decide) (fun _ _ => ⟨rfl, rfl⟩) _ _ hp 31 hc hpool [] [] [] (.fresh .nil)
  rw [hr] at hr'
  cases hr'
  have hle := hover'.mp hover
  rw [List.length_nil, Nat.zero_add] at hle
  exact absurd hle (Nat.not_le_of_gt hslots)

end LuaBinaryTable
