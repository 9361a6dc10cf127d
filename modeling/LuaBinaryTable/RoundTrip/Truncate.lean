import LuaBinaryTable.Document.Equiv.Truncate
import LuaBinaryTable.RoundTrip

/-!
# Truncated documents

`parseBinaryTable` refuses the proper front of a document, unless the cut is inside of the payload
of the last value that is left: then the payload reads as zero and the value is accepted
(`parse_truncated_iff`).  A front that is nested deeper than the buffer of the stack allows is not
refused either: the decoder writes behind the buffer before it comes to the cut.
-/

namespace LuaBinaryTable

namespace Reader

/-- The run returns `nil` and a message on the stack `S`, with nothing written behind the buffer. -/
def Refuses (S : List LuaValue) : Run ParseState (Nat × ParseState) → Prop
  | .returns (n, s) => (n = 2 ∧ ∃ m, s.L.stack = .string m :: .nil :: S) ∧ ¬ s.L.Overrun
  | _ => False

variable (sizes : TableSizes) (S : List LuaValue) (h : List LuaTable) (T : Thread) (data : Bytes)

/-- The run refuses the input where it breaks off, asks for nothing that Lua refuses and fits the
buffer of the stack. -/
theorem refuses_iff : Refuses S (parseBinaryTable sizes (.entry S h T) data) ↔
    (readDocument data).outcome sizes = .fails ∧
      S.length + (readDocument data).slots sizes ≤ T.slots := by
  rcases parseBinaryTable_cases sizes S h T data with
    ⟨strs, d, s, _, ho, hr, _⟩ | ⟨s, ho, hr, hst⟩ | ⟨s, ho, hr⟩
  · rw [hr, ho]
    exact iff_of_false (fun hrefuses => by cases hrefuses.1.1) fun hf => by cases hf.1
  · rw [hr, ho, Refuses, overrun_iff sizes S h T data hr]
    exact and_congr_left' (iff_of_true ⟨rfl, _, hst⟩ rfl)
  · rw [hr, ho]
    exact iff_of_false (fun hrefuses => hrefuses) fun hf => by cases hf.1

theorem refuses_iff_not_cut : Refuses S (parseBinaryTable sizes (.entry S h T) data) ↔
    (¬ CutDocument data ∧ ¬ WholeDocument data ∧ (readDocument data).Legal sizes) ∧
      S.length + (readDocument data).slots sizes ≤ T.slots := by
  rw [refuses_iff, Reading.outcome_eq_fails_iff, complete_iff, not_or]
  tauto

variable {sizes S h T data}

/-- What the run has consumed when it accepts the input lies inside of it, unless it is cut. -/
theorem reader_le_iff {s : ParseState}
    (hr : parseBinaryTable sizes (.entry S h T) data = .returns (1, s)) :
    s.reader.p ≤ data.length ↔ ¬ CutDocument data := by
  rcases parseBinaryTable_cases sizes S h T data with
    ⟨strs, d, s', hbody, ho, hr', _⟩ | ⟨s', _, hr', _⟩ | ⟨s', _, hr'⟩
  · rw [hr] at hr'
    injection hr' with hr'
    obtain ⟨_, rfl⟩ := Prod.mk.inj hr'
    have hc := ((Reading.outcome_eq_complete_iff sizes data).mp ho).1
    rw [hbody] at hc
    constructor
    · rintro hle hcut
      obtain ⟨_, _, _, hbody', _, hlt⟩ := hcut.readDocument
      obtain ⟨_, _, rfl⟩ := Reading.body.inj (hbody.symm.trans hbody')
      omega
    · intro hcut
      exact ((whole_or_cut hbody hc).resolve_right hcut).2
  · rw [hr] at hr'
    injection hr' with hr'
    cases (Prod.mk.inj hr').1
  · rw [hr] at hr'
    cases hr'

end Reader

open Reader

variable {env : Env} {sizes : TableSizes} {limit : Nat}

/-- An input that `parseBinaryTable` accepts is consumed inside of its bounds unless it is cut
inside of a payload, and of what is written every proper front is refused with that exception, as
long as the buffer of the stack has the slots for it. -/
theorem parse_truncated_iff (hperm : env.sort.Permutes) (hlimit : limit ≤ 2 ^ 31)
    (hsizes : Accepts sizes limit) {S : List LuaValue} {h : List LuaTable} {T : Thread}
    {idx : Int} (hidx : ValidIndex S idx) (ha : Acyclic h (valueAt S idx)) {fuel : Nat}
    {e : Bytes} (hw : written (writeBinaryTable env fuel (.entry S h T) idx) = some e)
    (S' : List LuaValue) (h' : List LuaTable) (T' : Thread) :
    (∀ b s, parseBinaryTable sizes (.entry S' h' T') b = .returns (1, s) →
      (s.reader.p ≤ b.length ↔ ¬ CutDocument b)) ∧
    ∀ p, p <+: e → p ≠ e →
      (Refuses S' (parseBinaryTable sizes (.entry S' h' T') p) ↔
        (¬ CutDocument p ∧ ¬ WholeDocument p ∧ (readDocument p).Legal sizes) ∧
          S'.length + (readDocument p).slots sizes ≤ T'.slots) ∧
      (Storable limit h (valueAt S idx) →
        ((layout env h fuel (valueAt S idx)).collect []).length < limit →
        (Refuses S' (parseBinaryTable sizes (.entry S' h' T') p) ↔
          ¬ CutDocument p ∧ S'.length + (readDocument p).slots sizes ≤ T'.slots)) := by
  refine ⟨fun b s hr => reader_le_iff hr, fun p hp hne => ⟨?_, ?_⟩⟩
  · exact refuses_iff_not_cut sizes S' h' T' p
  intro hstore hpool
  obtain ⟨hc, rfl⟩ := layout_of_writeBinaryTable hperm hidx ha hw
  rw [Doc.file_eq hc (by omega)] at hp hne
  have hread := readDocument_encodeFile (by omega) (encodable_layout hperm hstore hc) (by omega) []
  rw [List.append_nil] at hread
  -- a front of what is written is no whole document, and what Lua accepts of the file it accepts
  -- of the front
  rw [refuses_iff_not_cut]
  refine and_congr_left' (and_iff_left ?_)
  refine ⟨not_wholeDocument_of_front hread rfl hp hne, ?_⟩
  obtain ⟨rest, hrest⟩ := hp
  rw [← hrest] at hread
  refine legal_of_front (hsizes.toInt32 hlimit (Nat.zero_lt_of_lt hpool)) hread hc ?_
  rw [hread]
  exact ⟨(hsizes.toInt32 hlimit hpool).1, legal_layout hperm hlimit hsizes hstore hc⟩

/-- The fronts of the file of `flagTable`. -/
theorem parse_truncated_flagTable :
    (∀ b s, parseBinaryTable (fun _ _ => true) (.entry [] [] (.fresh .nil)) b = .returns (1, s) →
      (s.reader.p ≤ b.length ↔ ¬ CutDocument b)) ∧
    ∀ p, p <+: [98, 116, 1, 0, 1, 0, 0, 0, 1, 0, 97, 21, 1, 13, 1, 2] →
      p ≠ [98, 116, 1, 0, 1, 0, 0, 0, 1, 0, 97, 21, 1, 13, 1, 2] →
        (Refuses [] (parseBinaryTable (fun _ _ => true) (.entry [] [] (.fresh .nil)) p) ↔
          ¬ CutDocument p ∧ 0 + (readDocument p).slots (fun _ _ => true) ≤ freshSlots) := by
  have h := @parse_truncated_iff .plain (fun _ _ => true) 2 insertionSort_permutes (by decide)
    (fun _ _ => ⟨rfl, rfl⟩) [.table 0] [flagTable] (.fresh .nil) (-1) (validIndex_top _ [])
    portable_flagTable.acyclic 3 [98, 116, 1, 0, 1, 0, 0, 0, 1, 0, 97, 21, 1, 13, 1, 2]
    written_flagTable [] [] (.fresh .nil)
  exact ⟨h.1, fun p hp hne => (h.2 p hp hne).2 portable_flagTable.storable (by decide)⟩

/-- The file of the integer 5 without its last byte is accepted, and read one byte past its end. -/
theorem parse_truncated_five :
    written (writeBinaryTable .plain 1 (.entry [integer 5] [] (.fresh .nil)) (-1)) =
        some ([98, 116, 1, 0, 0, 0, 0, 0, 6] ++ [5]) ∧
      ¬ Refuses [] (parseBinaryTable (fun _ _ => true) (.entry [] [] (.fresh .nil))
        [98, 116, 1, 0, 0, 0, 0, 0, 6]) ∧
      ∃ s, parseBinaryTable (fun _ _ => true) (.entry [] [] (.fresh .nil))
          [98, 116, 1, 0, 0, 0, 0, 0, 6] = .returns (1, s) ∧
        s.L.stack = [integer 0] ∧ ¬ s.reader.p ≤ [98, 116, 1, 0, 0, 0, 0, 0, 6].length := by
  refine ⟨by decide +kernel, ?_, _, rfl, rfl, ?_⟩
  · exact fun h => absurd h.1.1 (by decide)
  · decide

end LuaBinaryTable
