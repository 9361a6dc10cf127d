import LuaBinaryTable.Document.Equiv.Encode
import LuaBinaryTable.Reader.Equiv.Trace

/-!
# Bounds on a run of `parseBinaryTable`

Three results about everything that a run does, drawn from its trace.  The work is bounded by the
number of bytes, whatever counts they declare (`parseBinaryTable_bounded`).  The sizes passed to
`lua_createtable` are in range exactly where the counts in the document are (`sizesInRange_iff`),
because the code checks neither.  A string index is checked against the pool from above only, so
string tags are decoded as they should be exactly where the document has no index 0
(`stringsChecked_iff`).
-/

namespace LuaBinaryTable

namespace Reader

open BinaryReader

/-! ### Work -/

/-- The event is a call of `parserValue`. -/
def isValue : ParseEvent → Bool
  | .value _ => true
  | _ => false

/-- The event is a round of the loop over the pool. -/
def isPoolRecord : ParseEvent → Bool
  | .poolRecord _ => true
  | _ => false

/-- The pool takes a third of the bytes at most in rounds, and reads no value. -/
theorem PoolTrace.counts {n : Nat} {tr : List ParseEvent} (h : PoolTrace n tr) :
    tr.countP isPoolRecord ≤ n / 3 + 1 ∧ tr.countP isValue = 0 := by
  obtain ⟨count, p, rounds, _, ⟨hrec, hbound⟩, rfl⟩ := h
  constructor
  · have hle := List.countP_le_length (p := isPoolRecord) (l := rounds)
    rw [List.countP_append]
    simp only [List.countP_cons, List.countP_nil, isPoolRecord, Bool.false_eq_true, if_false]
    omega
  · rw [List.countP_eq_zero]
    intro e he
    rcases List.mem_append.mp he with he | he
    · obtain ⟨p, rfl⟩ := hrec e he
      exact Bool.false_ne_true
    · rw [List.mem_singleton.mp he]
      simp [isValue]

/-- A step calls `parserValue` at most as often as it consumes bytes. -/
theorem ParseStep.work {size : Nat} {t : LuaTable} {a b : Progress} (h : ParseStep size t a b) :
    b.trace.countP isValue + b.reader.left ≤ a.trace.countP isValue + a.reader.left ∧
      b.trace.countP isPoolRecord = a.trace.countP isPoolRecord := by
  cases h with
  | tag r tr h =>
    have hleft : 0 < r.left := Nat.sub_pos_of_lt h
    simp only [List.countP_cons, isValue, isPoolRecord, if_true, Bool.false_eq_true, if_false,
      left_readNumber]
    exact ⟨by omega, rfl⟩
  | number r tr w =>
    simp only [left_readNumber]
    exact ⟨Nat.add_le_add_left (Nat.sub_le _ _) _, trivial⟩
  | createtable | string =>
    simp only [List.countP_cons, isValue, isPoolRecord, Bool.false_eq_true, if_false]
    exact ⟨le_rfl, rfl⟩

theorem ParseSteps.work {size : Nat} {t : LuaTable} {a b : Progress} (h : ParseSteps size t a b) :
    b.trace.countP isValue + b.reader.left ≤ a.trace.countP isValue + a.reader.left ∧
      b.trace.countP isPoolRecord = a.trace.countP isPoolRecord := by
  induction h with
  | refl => exact ⟨le_rfl, rfl⟩
  | tail _ hstep ih => exact ⟨hstep.work.1.trans ih.1, hstep.work.2.trans ih.2⟩

/-- The step with which a run fails calls `parserValue` once more at most. -/
theorem ParseStop.work {size : Nat} {a b : Progress} (h : ParseStop size a b) :
    b.trace.countP isValue ≤ a.trace.countP isValue + 1 ∧
      b.trace.countP isPoolRecord = a.trace.countP isPoolRecord := by
  cases h with
  | tag | string =>
    simp only [List.countP_cons, isValue, isPoolRecord, if_true, Bool.false_eq_true, if_false]
    exact ⟨by omega, rfl⟩

/-- The work of the decoder of a body. -/
theorem BodyStarts.work {sizes : TableSizes} {data : Bytes} {strs : List Bytes} {a b : Progress}
    (h : BodyStarts sizes data strs a) {size : Nat} {t : LuaTable} (hs : ParseSteps size t a b) :
    b.trace.countP isValue ≤ data.length ∧ b.trace.countP isPoolRecord ≤ data.length / 3 + 1 := by
  obtain ⟨hrec, hval⟩ := h.pool.counts
  obtain ⟨hwork, hwork'⟩ := hs.work
  have hleft : a.reader.left ≤ data.length := by
    rw [← h.data_eq]
    exact Nat.sub_le _ _
  omega

/-- `parseBinaryTable` ends, after at most as many rounds of its loop over the pool and calls of
`parserValue` as the length of the input allows. -/
theorem parseBinaryTable_bounded (sizes : TableSizes) (S : List LuaValue) (h : List LuaTable)
    (T : Thread) (data : Bytes) :
    parseBinaryTable sizes (.entry S h T) data ≠ .diverges ∧
      (trace (parseBinaryTable sizes (.entry S h T) data)).countP isPoolRecord ≤
        data.length / 3 + 1 ∧
      (trace (parseBinaryTable sizes (.entry S h T) data)).countP isValue ≤ data.length + 1 := by
  refine ⟨parseBinaryTable_ne_diverges sizes S h T data, ?_⟩
  have hrec := records_parseBinaryTable sizes S h T data
  generalize parseBinaryTable sizes (.entry S h T) data = x at hrec
  cases hrec with
  | header h =>
    simp only [trace, h]
    exact ⟨Nat.zero_le _, Nat.zero_le _⟩
  | poolFails h | poolRaises h =>
    obtain ⟨h1, h2⟩ := h.counts
    exact ⟨h1, by rw [trace, h2]; exact Nat.zero_le _⟩
  | body h hs | bodyRaises h hs =>
    obtain ⟨h1, h2⟩ := h.work hs
    exact ⟨h2, Nat.le_succ_of_le h1⟩
  | bodyFails h hs hstop =>
    obtain ⟨h1, h2⟩ := h.work hs
    obtain ⟨h3, h4⟩ := hstop.work
    exact ⟨h4.trans_le h2, h3.trans (Nat.succ_le_succ h1)⟩

/-! ### Table sizes -/

/-- A count of 32 bits with its conversion to `int`. -/
def Converted (e : ParseEvent) : Prop :=
  ∀ count size p, e = .createtable count size p → count < 2 ^ 32 ∧ size = toInt32 count

theorem PoolTrace.converted {n : Nat} {tr : List ParseEvent} (h : PoolTrace n tr) :
    ∀ e ∈ tr, Converted e := by
  obtain ⟨count, p, rounds, hlt, ⟨hrec, _⟩, rfl⟩ := h
  rintro e he count' size' p' rfl
  rcases List.mem_append.mp he with he | he
  · obtain ⟨_, h⟩ := hrec _ he
    cases h
  · cases List.mem_singleton.mp he
    exact ⟨hlt, rfl⟩

/-- Each count that is asked for is a number read from the input, taken as an `int`. -/
theorem ParseSteps.converted {size : Nat} {t : LuaTable} {a b : Progress}
    (h : ParseSteps size t a b) (ha : ∀ e ∈ a.trace, Converted e) : ∀ e ∈ b.trace, Converted e := by
  induction h with
  | refl => exact ha
  | tail _ hstep ih =>
    cases hstep with
    | number => exact ih
    | createtable r tr count hlt =>
      rintro e he count' size' p' rfl
      rcases List.mem_cons.mp he with he | he
      · cases he
        exact ⟨hlt, rfl⟩
      · exact ih _ he _ _ _ rfl
    | tag | string =>
      rintro e he count' size' p' rfl
      rcases List.mem_cons.mp he with he | he
      · cases he
      · exact ih _ he _ _ _ rfl

theorem ParseStop.converted {size : Nat} {a b : Progress} (h : ParseStop size a b)
    (ha : ∀ e ∈ a.trace, Converted e) : ∀ e ∈ b.trace, Converted e := by
  cases h with
  | tag | string =>
    rintro e he count' size' p' rfl
    rcases List.mem_cons.mp he with he | he
    · cases he
    · exact ha _ he _ _ _ rfl

/-- Every size passed to `lua_createtable` is a count of 32 bits, converted to `int`. -/
theorem Records.converted {sizes : TableSizes} {data : Bytes}
    {x : Run ParseState (Nat × ParseState)} (h : Records sizes data x) :
    ∀ e ∈ trace x, Converted e := by
  cases h with
  | header h => simp [trace, h]
  | poolFails h | poolRaises h => exact h.converted
  | body h hs | bodyRaises h hs => exact hs.converted h.pool.converted
  | bodyFails h hs hstop => exact hstop.converted (hs.converted h.pool.converted)

/-- Every size that the run has passed to `lua_createtable` is at least 0 and at most the number of
bytes not yet consumed. -/
def SizesInRange (data : Bytes) (x : Run ParseState (Nat × ParseState)) : Prop :=
  ∀ (count : Nat) (size : Int) (p : Nat), .createtable count size p ∈ trace x →
    0 ≤ size ∧ size ≤ (data.length - p : Nat)

/-- Every count that the document declares fits an `int`, and is at most the number of bytes behind
it. -/
def CountsFit (sizes : TableSizes) (data : Bytes) : Prop :=
  ∀ n p, .count n p ∈ declared sizes data → n < 2 ^ 31 ∧ n ≤ data.length - p

/-- The sizes are in range in a run exactly where the counts that the document declares are. -/
theorem sizesInRange_iff (sizes : TableSizes) (S : List LuaValue) (h : List LuaTable)
    (T : Thread) (data : Bytes) :
    SizesInRange data (parseBinaryTable sizes (.entry S h T) data) ↔ CountsFit sizes data := by
  have hconv := (records_parseBinaryTable sizes S h T data).converted
  have hmem := mem_trace_iff sizes S h T data
  -- of a count of 32 bits the conversion keeps only what fits
  have hiff : ∀ {count : Nat} {size : Int} {p : Nat}, .createtable count size p ∈
      trace (parseBinaryTable sizes (.entry S h T) data) →
      ((0 ≤ size ∧ size ≤ (data.length - p : Nat)) ↔
        count < 2 ^ 31 ∧ count ≤ data.length - p) := by
    intro count size p he
    obtain ⟨hlt, hsize⟩ := hconv _ he count size p rfl
    rw [hsize, toInt32, Int.bmod_def]
    split_ifs <;> omega
  constructor
  · intro hs count p hc
    obtain ⟨e, he, hpayload⟩ := (hmem _).mpr hc
    cases e with
    | createtable count' size p' =>
      cases hpayload
      exact (hiff he).mp (hs _ size _ he)
    | string => cases hpayload
    | value | poolRecord => cases hpayload
  · intro hc count size p he
    exact (hiff he).mpr (hc count p ((hmem _).mp ⟨_, he, rfl⟩))

/-- The pool count `2^32 - 1` becomes the size -1. -/
theorem not_sizesInRange_pool_count :
    ¬ SizesInRange [0x62, 0x74, 1, 0, 255, 255, 255, 255]
      (parseBinaryTable (fun narr nrec => decide (0 ≤ narr ∧ 0 ≤ nrec)) (.entry [] [] (.fresh .nil))
        [0x62, 0x74, 1, 0, 255, 255, 255, 255]) := by
  intro h
  have hsize := (h 4294967295 (-1) 8 (by decide)).1
  exact absurd hsize (by decide)

/-! ### String references -/

/-- The strings of the pool of an input, none where it breaks off. -/
def poolStrings (data : Bytes) : List Bytes :=
  match readDocument data with
  | .body strs _ _ => strs
  | _ => []

theorem PoolTrace.no_string {n : Nat} {tr : List ParseEvent} (h : PoolTrace n tr) (i : Nat)
    (pushed : Option LuaValue) : .string i pushed ∉ tr := by
  obtain ⟨count, p, rounds, _, ⟨hrec, _⟩, rfl⟩ := h
  intro he
  rcases List.mem_append.mp he with he | he
  · obtain ⟨_, h⟩ := hrec _ he
    cases h
  · cases List.mem_singleton.mp he

/-- What the steps push for a string index is in the pool's table. -/
theorem ParseSteps.string {size : Nat} {t : LuaTable} {a b : Progress} (h : ParseSteps size t a b)
    {i : Nat} {pushed : Option LuaValue} (he : .string i pushed ∈ b.trace) :
    .string i pushed ∈ a.trace ∨ (i ≤ size ∧ pushed = some (t.get (integer (toInt32 i)))) := by
  induction h with
  | refl => exact Or.inl he
  | tail _ hstep ih =>
    cases hstep with
    | number => exact ih he
    | string r tr j hj =>
      rcases List.mem_cons.mp he with he | he
      · cases he
        exact Or.inr ⟨hj, rfl⟩
      · exact ih he
    | tag | createtable =>
      rcases List.mem_cons.mp he with he | he
      · cases he
      · exact ih he

/-- The string indices of a run: each is at most the size of the pool, and its value comes from the
pool's table, or else it ends the run in failure. -/
theorem Records.string {sizes : TableSizes} {data : Bytes} {x : Run ParseState (Nat × ParseState)}
    (h : Records sizes data x) {i : Nat} {pushed : Option LuaValue}
    (he : .string i pushed ∈ trace x) :
    ∃ strs, poolStrings data = strs ∧ strs.length < 2 ^ 32 ∧
      sizes (toInt32 strs.length) 0 = true ∧
      ((i ≤ strs.length ∧ pushed = some ((poolTable strs).get (integer (toInt32 i)))) ∨
        (strs.length < i ∧ pushed = none ∧ ∃ s, x = .returns (2, s))) := by
  cases h with
  | header h =>
    rw [trace, h] at he
    cases he
  | poolFails h | poolRaises h => exact absurd he (h.no_string i pushed)
  | body h hs | bodyRaises h hs =>
    obtain ⟨d, r, hread⟩ := h.read
    refine ⟨_, by rw [poolStrings, hread], h.length_lt, h.size, Or.inl ?_⟩
    exact (hs.string he).resolve_left (h.pool.no_string i pushed)
  | @bodyFails strs a b s h hs hstop =>
    obtain ⟨d, r, hread⟩ := h.read
    refine ⟨strs, by rw [poolStrings, hread], h.length_lt, h.size, ?_⟩
    -- the string that ends the run is not checked before, the others were
    have hcases : .string i pushed ∈ b.trace ∨ (strs.length < i ∧ pushed = none) := by
      generalize hc : progress s = c at hstop
      rw [trace, show s.trace = c.trace from congrArg Progress.trace hc] at he
      cases hstop with
      | tag =>
        rcases List.mem_cons.mp he with he | he
        · cases he
        · exact Or.inl he
      | string r tr j hj =>
        rcases List.mem_cons.mp he with he | he
        · cases he
          exact Or.inr ⟨hj, rfl⟩
        · exact Or.inl he
    rcases hcases with hb | ⟨h1, h2⟩
    · exact Or.inl ((hs.string hb).resolve_left (h.pool.no_string i pushed))
    · exact Or.inr ⟨h1, h2, s, rfl⟩

/-- The string of number `i + 1` in the pool's table. -/
theorem get_poolTable {strs : List Bytes} (hlen : strs.length < 2 ^ 31) {i : Nat}
    (hi : i < strs.length) : (poolTable strs).get (integer (toInt32 ↑(i + 1))) = .string strs[i] := by
  have hint : toInt32 ↑(i + 1) = ↑(i + 1) := Int.bmod_eq_of_le (by omega) (by omega)
  have hes := entries_fillPool strs [] (t := .empty) rfl (by simpa using hlen)
  have hget := LuaTable.get_integer hes (m := i) (by omega)
  rw [List.nil_append, List.getElem?_map, List.getElem?_eq_getElem hi] at hget
  rw [hint]
  exact hget

/-- What a string index read in a run should lead to, with the pool `strs`: the string of that
number, or the failure of the run where there is none, and never a value that is not a string. -/
structure StringChecked (strs : List Bytes) (x : Run ParseState (Nat × ParseState)) (i : Nat)
    (pushed : Option LuaValue) : Prop where
  inRange : ∀ s, 0 < i → strs[i - 1]? = some s → pushed = some (.string s)
  outOfRange : i = 0 ∨ strs.length < i → pushed = none ∧ ∃ s, x = .returns (2, s)
  string : ∀ v, pushed = some v → ∃ s, v = .string s

/-- Every string index that the run has read is checked against the pool. -/
def StringsChecked (data : Bytes) (x : Run ParseState (Nat × ParseState)) : Prop :=
  ∀ i pushed, .string i pushed ∈ trace x → StringChecked (poolStrings data) x i pushed

/-- `lua_createtable` refuses negative sizes. -/
def RefusesNegative (sizes : TableSizes) : Prop :=
  ∀ narr nrec, sizes narr nrec = true → 0 ≤ narr ∧ 0 ≤ nrec

/-- The string indices of a run are checked against the pool exactly where the document declares no
index 0. -/
theorem stringsChecked_iff {sizes : TableSizes} (hsizes : RefusesNegative sizes)
    (S : List LuaValue) (h : List LuaTable) (T : Thread) (data : Bytes) :
    StringsChecked data (parseBinaryTable sizes (.entry S h T) data) ↔
      .index 0 ∉ declared sizes data := by
  rw [← mem_trace_iff sizes S h T data]
  have hrec := records_parseBinaryTable sizes S h T data
  generalize parseBinaryTable sizes (.entry S h T) data = x at hrec ⊢
  constructor
  · -- an index 0 is accepted, although no string has that number
    rintro hc ⟨e, he, hpayload⟩
    obtain ⟨pushed, rfl⟩ : ∃ pushed, e = .string 0 pushed := by
      cases e with
      | string i pushed =>
        cases hpayload
        exact ⟨pushed, rfl⟩
      | _ => cases hpayload
    obtain ⟨rfl, _⟩ := (hc 0 pushed he).outOfRange (Or.inl rfl)
    obtain ⟨strs, _, _, _, ⟨_, h⟩ | ⟨h, _⟩⟩ := hrec.string he
    · cases h
    · exact Nat.not_lt_zero _ h
  · intro hz i pushed he
    have hne : i ≠ 0 := by
      rintro rfl
      exact hz ⟨_, he, rfl⟩
    obtain ⟨strs, hstrs, hlt, hsize, ⟨hi, rfl⟩ | ⟨hi, rfl, hx⟩⟩ := hrec.string he
    · have hlen : strs.length < 2 ^ 31 := by
        have hneg := (hsizes _ _ hsize).1
        unfold toInt32 at hneg
        rw [Int.bmod_def] at hneg
        split_ifs at hneg <;> omega
      obtain ⟨j, rfl⟩ : ∃ j, i = j + 1 := ⟨i - 1, by omega⟩
      rw [hstrs, get_poolTable hlen hi]
      refine ⟨fun s _ hs => ?_, fun hout => ?_, fun v hv => ⟨_, (Option.some.inj hv).symm⟩⟩
      · rw [Nat.add_sub_cancel, List.getElem?_eq_getElem hi] at hs
        rw [Option.some.inj hs]
      · omega
    · rw [hstrs]
      refine ⟨fun s _ hs => ?_, fun _ => ⟨rfl, hx⟩, fun v hv => by cases hv⟩
      rw [List.getElem?_eq_none (by omega)] at hs
      cases hs

/-- The one string of a pool is read by its number. -/
theorem stringsChecked_one_string :
    StringsChecked [0x62, 0x74, 1, 0, 1, 0, 0, 0, 1, 0, 97, 13, 1]
      (parseBinaryTable (fun narr nrec => decide (0 ≤ narr ∧ 0 ≤ nrec)) (.entry [] [] (.fresh .nil))
        [0x62, 0x74, 1, 0, 1, 0, 0, 0, 1, 0, 97, 13, 1]) := by
  exact (stringsChecked_iff (fun _ _ h => of_decide_eq_true h) [] [] (.fresh .nil) _).mpr
    (by decide)

/-- The index 0 in an empty pool is decoded to `nil`, and the run succeeds. -/
theorem not_stringsChecked_index_zero :
    ¬ StringsChecked [0x62, 0x74, 1, 0, 0, 0, 0, 0, 13, 0]
      (parseBinaryTable (fun narr nrec => decide (0 ≤ narr ∧ 0 ≤ nrec)) (.entry [] [] (.fresh .nil))
        [0x62, 0x74, 1, 0, 0, 0, 0, 0, 13, 0]) := by
  intro h
  obtain ⟨s, hs⟩ := (h 0 (some .nil) (by decide)).string _ rfl
  cases hs

end Reader

end LuaBinaryTable
