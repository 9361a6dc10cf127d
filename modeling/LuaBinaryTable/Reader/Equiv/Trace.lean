import LuaBinaryTable.Reader.Equiv.Clean
import LuaBinaryTable.Reader.Equiv.Declared
import LuaBinaryTable.Reader.Equiv.Steps

/-!
# What `parseBinaryTable` records

`records_parseBinaryTable`: the trace of a run starts with the pool, one `createtable` and the
records of its loop, and goes on with the steps of `parserValue` on the body.  What it says of
counts and string indices is what the document declares (`mem_trace_iff`).
-/

namespace LuaBinaryTable

namespace BinaryReader

/-- The number of bytes not yet consumed. -/
def left (r : BinaryReader) : Nat := r.data.length - r.p

variable (w n : Nat) (r : BinaryReader)

@[simp] theorem data_readNumber : (r.readNumber w).2.data = r.data := rfl

theorem left_readNumber : (r.readNumber w).2.left = r.left - w := by
  simp only [left, readNumber]
  omega

/-- A number other than 0 lies inside the input. -/
theorem le_of_readNumber (h : leNat (r.readNumber w).1 ≠ 0) : w ≤ r.left ∨ w = 0 := by
  by_cases hle : r.p + w ≤ r.data.length
  · unfold left
    omega
  · -- a short read gives zeros
    rw [readNumber, if_neg hle] at h
    exact absurd (leNat_zeros w) h

theorem data_readBytes : (r.readBytes n).2.data = r.data := by
  unfold readBytes
  split_ifs <;> rfl

theorem left_readBytes {s : Bytes} (h : (r.readBytes n).1 = some s) :
    (r.readBytes n).2.left + n = r.left := by
  unfold readBytes at h ⊢
  split_ifs at h ⊢
  simp only [left]
  omega

end BinaryReader

namespace Reader

open LuaState BinaryReader

/-- The events that a run of `parseBinaryTable` has recorded, the last first. -/
def trace : Run ParseState (Nat × ParseState) → List ParseEvent
  | .returns (_, s) => s.trace
  | .raises s => s.trace
  | .diverges => []

/-! ### The pool -/

/-- The rounds of the loop over the pool, at least three bytes each but for the last. -/
structure Rounds (left : Nat) (rounds : List ParseEvent) : Prop where
  records : ∀ e ∈ rounds, ∃ p, e = .poolRecord p
  bounded : 3 * rounds.length ≤ left + 3

/-- The loop over the pool records its rounds.  What the rounds have consumed and what is left add
up to what was left at the start. -/
theorem trace_parseLoop : ∀ (n i : Nat) (s : ParseState), ∃ rounds,
    (StringTable.parseLoop n i s).2.trace = rounds ++ s.trace ∧
      (StringTable.parseLoop n i s).2.reader.data = s.reader.data ∧ Rounds s.reader.left rounds
  | 0, _, s => ⟨[], rfl, rfl, by simp, by simp⟩
  | n + 1, i, s => by
    rw [StringTable.parseLoop]
    generalize hlen : leNat (s.reader.readNumber stringLengthSize).1 = len
    have hone : Rounds s.reader.left [.poolRecord s.reader.p] :=
      ⟨fun e he => ⟨_, List.mem_singleton.mp he⟩, by simp⟩
    simp only [ParseState.log, ParseState.readNumber, hlen]
    -- the round that ends the loop is recorded as well
    by_cases hz : len = 0
    · rw [if_pos hz]
      exact ⟨[.poolRecord s.reader.p], rfl, rfl, hone⟩
    · rw [if_neg hz]
      cases hb : (s.reader.readNumber stringLengthSize).2.readBytes len with
      | mk str r' =>
        have hdata : r'.data = s.reader.data := by
          have := data_readBytes len (s.reader.readNumber stringLengthSize).2
          rwa [hb] at this
        cases str with
        | none => exact ⟨[.poolRecord s.reader.p], rfl, hdata, hone⟩
        | some str =>
          -- two bytes of length and at least one of the string
          have hleft := left_readBytes (s := str) len (s.reader.readNumber stringLengthSize).2
            (by rw [hb])
          have hle := le_of_readNumber stringLengthSize s.reader (by rw [hlen]; exact hz)
          rw [hb, left_readNumber] at hleft
          obtain ⟨rounds, htr, hd, hrec, hbound⟩ := trace_parseLoop n (i + 1)
            ⟨(s.L.pushlstring str).rawseti (-2) (toInt32 (toInt32 i + 1)), r',
              .poolRecord s.reader.p :: s.trace⟩
          refine ⟨rounds ++ [.poolRecord s.reader.p], ?_, hd.trans hdata, fun e he => ?_, ?_⟩
          · rw [List.append_assoc]
            exact htr
          · rcases List.mem_append.mp he with he | he
            · exact hrec e he
            · exact ⟨_, List.mem_singleton.mp he⟩
          · rw [List.length_append, List.length_singleton]
            unfold stringLengthSize at *
            simp only at hbound hleft
            omega

/-- The events of the pool at the start of an input of `n` bytes. -/
def PoolTrace (n : Nat) (tr : List ParseEvent) : Prop :=
  ∃ count p rounds, count < 2 ^ 32 ∧ Rounds n rounds ∧
    tr = rounds ++ [.createtable count (toInt32 count) p]

/-- The rounds of the loop declare nothing. -/
theorem Rounds.payloads {left : Nat} {rounds : List ParseEvent} (h : Rounds left rounds) :
    rounds.filterMap payload? = [] := by
  rw [List.filterMap_eq_nil_iff]
  intro e he
  obtain ⟨p, rfl⟩ := h.records e he
  rfl

/-- The events of the pool that starts at the cursor. -/
def PoolTraceFrom (r : BinaryReader) (tr : List ParseEvent) : Prop :=
  PoolTrace r.data.length tr ∧
    tr.filterMap payload? = [.count (leNat (r.readNumber stringPoolLengthSize).1)
      (r.readNumber stringPoolLengthSize).2.p]

/-- `parse` asks for a table and records the rounds of its loop. -/
theorem trace_parse (sizes : TableSizes) (L : LuaState) (r : BinaryReader) :
    match StringTable.parse sizes ⟨L, r, []⟩ with
    | .returns (_, _, s) => s.reader.data = r.data ∧ PoolTraceFrom r s.trace
    | .raises s => PoolTraceFrom r s.trace
    | .diverges => False := by
  unfold PoolTraceFrom
  obtain ⟨count, hc⟩ : ∃ count, leNat (r.readNumber stringPoolLengthSize).1 = count := ⟨_, rfl⟩
  have hcount : count < 2 ^ 32 := hc ▸ leNat_readNumber_lt le_rfl r
  simp only [StringTable.parse, ParseState.readNumber, ParseState.log, ParseState.callLua,
    createtable, hc]
  by_cases hs : sizes (toInt32 count) 0 = true
  · simp only [hs, if_true, Run.returns_bind, Run.pure_eq]
    obtain ⟨rounds, htr, hdata, hrec, hbound⟩ := trace_parseLoop count 0
      ⟨L.newtable, (r.readNumber stringPoolLengthSize).2, [.createtable count (toInt32 count)
        (r.readNumber stringPoolLengthSize).2.p]⟩
    rw [left_readNumber] at hbound
    have hleft : r.left ≤ r.data.length := Nat.sub_le _ _
    refine ⟨hdata, ⟨count, _, rounds, hcount, ⟨hrec, by omega⟩, htr⟩, ?_⟩
    rw [htr, List.filterMap_append, (Rounds.mk hrec hbound).payloads]
    rfl
  · simp only [hs, Bool.false_eq_true, if_false, Run.raises_bind]
    exact ⟨⟨count, _, [], hcount, ⟨by simp, by simp⟩, rfl⟩, rfl⟩

/-! ### The whole document -/

/-- The decoder of a body starts at `a`, with the pool `strs`. -/
structure BodyStarts (sizes : TableSizes) (data : Bytes) (strs : List Bytes) (a : Progress) : Prop where
  read : ∃ d r, readDocument data = .body strs d r
  size : sizes (toInt32 strs.length) 0 = true
  length_lt : strs.length < 2 ^ 32
  data_eq : a.reader.data = data
  pool : PoolTrace data.length a.trace

/-- What a run of `parseBinaryTable` on an input has recorded. -/
inductive Records (sizes : TableSizes) (data : Bytes) : Run ParseState (Nat × ParseState) → Prop
  | header {s : ParseState} (h : s.trace = []) : Records sizes data (.returns (2, s))
  | poolFails {s : ParseState} (h : PoolTrace data.length s.trace) :
      Records sizes data (.returns (2, s))
  | poolRaises {s : ParseState} (h : PoolTrace data.length s.trace) : Records sizes data (.raises s)
  | body {strs : List Bytes} {a : Progress} {s : ParseState} (h : BodyStarts sizes data strs a)
      (hs : ParseSteps strs.length (poolTable strs) a (progress s)) :
      Records sizes data (.returns (1, s))
  | bodyFails {strs : List Bytes} {a b : Progress} {s : ParseState}
      (h : BodyStarts sizes data strs a) (hs : ParseSteps strs.length (poolTable strs) a b)
      (hstop : ParseStop strs.length b (progress s)) : Records sizes data (.returns (2, s))
  | bodyRaises {strs : List Bytes} {a : Progress} {s : ParseState}
      (h : BodyStarts sizes data strs a)
      (hs : ParseSteps strs.length (poolTable strs) a (progress s)) :
      Records sizes data (.raises s)

/-- What `parseBinaryTable` does after `parserValue`. -/
def conclude (st : StringTable) (top : Nat) (a : Bool × ParseState) :
    Run ParseState (Nat × ParseState) :=
  if a.1 then .returns (1, { a.2 with L := st.destroy a.2.L })
  else .returns (failWith { a.2 with L := a.2.L.settop top } parseFailedMessage)

/-- What comes behind `parserValue` records nothing. -/
theorem trace_conclude {ds : List Declared} {tr : List ParseEvent}
    {x : Run ParseState (Bool × ParseState)} {st : StringTable} {top : Nat}
    (hx : Recorded ds tr x) (hne : (x >>= conclude st top) ≠ .diverges) :
    (trace (x >>= conclude st top)).filterMap payload? = ds.reverse ++ tr.filterMap payload? := by
  match x, hx with
  | .returns (true, s), hx => exact hx
  | .returns (false, s), hx => exact hx
  | .raises s, hx => exact hx
  | .diverges, _ => exact absurd rfl hne

theorem records_body {sizes : TableSizes} {data : Bytes} {strs : List Bytes} {a : Progress}
    {x : Run ParseState (Bool × ParseState)} {st : StringTable} {top : Nat}
    (h : BodyStarts sizes data strs a) (hx : Traced strs.length (poolTable strs) a x)
    (hne : (x >>= conclude st top) ≠ .diverges) : Records sizes data (x >>= conclude st top) := by
  match x, hx with
  | .returns (true, s), hs => exact .body h hs
  | .returns (false, s), ⟨b, hs, hstop⟩ => exact .bodyFails h hs hstop
  | .raises s, hs => exact .bodyRaises h hs
  | .diverges, _ => exact absurd rfl hne

/-- `parseBinaryTable` ends. -/
theorem parseBinaryTable_ne_diverges (sizes : TableSizes) (S : List LuaValue) (h : List LuaTable)
    (T : Thread) (data : Bytes) : parseBinaryTable sizes (.entry S h T) data ≠ .diverges := by
  intro hd
  rcases parseBinaryTable_cases sizes S h T data with
    ⟨_, _, _, _, _, hr, _⟩ | ⟨_, _, hr, _⟩ | ⟨_, _, hr⟩ <;>
  · rw [hr] at hd
    cases hd

/-- What a run of `parseBinaryTable` records: its pool and the steps of its body, and of counts and
string indices those that the document declares. -/
theorem records_and_declared (sizes : TableSizes) (S : List LuaValue) (h : List LuaTable)
    (T : Thread) (data : Bytes) :
    Records sizes data (parseBinaryTable sizes (.entry S h T) data) ∧
      (trace (parseBinaryTable sizes (.entry S h T) data)).filterMap payload? =
        (declared sizes data).reverse := by
  have hdiv := parseBinaryTable_ne_diverges sizes S h T data
  -- the right-hand side follows the branches of the parser
  have hread : readDocument data = readDocument data := rfl
  conv at hread => rhs; rw [readDocument]
  simp only [parseBinaryTable, ParseState.readNumber, declared] at hdiv hread ⊢
  by_cases hmagic : leNat (BinaryReader.readNumber 2 ⟨data, 0⟩).1 ≠ magicNumber
  · simp only [hmagic, ne_eq, not_false_eq_true, if_true, Run.pure_eq]
    exact ⟨.header rfl, rfl⟩
  simp only [hmagic, if_false] at hdiv hread ⊢
  generalize hr : (BinaryReader.readNumber 2 ⟨data, 0⟩).2 = r at hdiv hread ⊢
  by_cases hversion : leNat (r.readNumber 2).1 ≠ luabtVersion
  · simp only [hversion, ne_eq, not_false_eq_true, if_true, Run.pure_eq]
    exact ⟨.header rfl, rfl⟩
  simp only [hversion, if_false] at hdiv hread ⊢
  have hdata : (r.readNumber 2).2.data = data := by rw [← hr]; rfl
  generalize (r.readNumber 2).2 = r₁ at hdiv hread hdata ⊢
  rcases hpool : readPool (leNat (r₁.readNumber stringPoolLengthSize).1)
    (r₁.readNumber stringPoolLengthSize).2 with ⟨strs, ok, r₂⟩
  have htrace := trace_parse sizes (.entry S h T) r₁
  obtain ⟨tr', hparse⟩ := parse_eq sizes (.entry S h T) r₁ [] rfl rfl hpool
  rw [hparse] at htrace hdiv ⊢
  unfold PoolTraceFrom at htrace
  rw [hdata] at htrace
  by_cases hs : sizes (toInt32 (leNat (r₁.readNumber stringPoolLengthSize).1)) 0 = true
  · rw [if_pos hs] at htrace hdiv ⊢
    obtain ⟨hdata', htrace, hcount⟩ := htrace
    simp only [hs, if_true, List.reverse_cons]
    rw [← hcount]
    cases ok with
    | false => exact ⟨.poolFails htrace, rfl⟩
    | true =>
      have hlen := length_readPool (leNat (r₁.readNumber stringPoolLengthSize).1)
        (r₁.readNumber stringPoolLengthSize).2
      rw [hpool] at hlen hread
      -- all `count` strings were read, and the body is decoded against them
      rw [← hlen rfl] at hs hdiv ⊢
      simp only [Run.returns_bind, if_true] at hdiv ⊢
      have hat := poolAt_poolTable (.entry S h T) strs
      have hle := (le_max_right _ _).trans (le_max_left (max S.length (S.length + 1))
        (S.length + 1 + min 1 strs.length))
      have hsteps := traced_parserValue sizes _ _ (poolTable strs) (data.length + 1) _ _ T
        (max (max S.length (S.length + 1)) (S.length + 1 + min 1 strs.length)) r₂ tr' hat hle
      have hpayloads := recorded_parserValue sizes _ _ (poolTable strs) (data.length + 1) _ _ T
        (max (max S.length (S.length + 1)) (S.length + 1 + min 1 strs.length)) r₂ tr' hat hle
      exact ⟨records_body ⟨⟨_, _, hread⟩, hs, hlen rfl ▸ leNat_readNumber_lt le_rfl r₁, hdata',
        htrace⟩ hsteps hdiv, trace_conclude hpayloads hdiv⟩
  · rw [if_neg hs] at htrace ⊢
    obtain ⟨htrace, hcount⟩ := htrace
    refine ⟨.poolRaises htrace, ?_⟩
    simp only [hs, if_false, Bool.false_eq_true]
    exact hcount

/-- A run of `parseBinaryTable` records its pool and the steps of its body. -/
theorem records_parseBinaryTable (sizes : TableSizes) (S : List LuaValue) (h : List LuaTable)
    (T : Thread) (data : Bytes) :
    Records sizes data (parseBinaryTable sizes (.entry S h T) data) :=
  (records_and_declared sizes S h T data).1

/-- The run says of counts and string indices what the document declares. -/
theorem mem_trace_iff (sizes : TableSizes) (S : List LuaValue) (h : List LuaTable)
    (T : Thread) (data : Bytes) (c : Declared) :
    (∃ e ∈ trace (parseBinaryTable sizes (.entry S h T) data), payload? e = some c) ↔
      c ∈ declared sizes data := by
  rw [← List.mem_filterMap, (records_and_declared sizes S h T data).2, List.mem_reverse]

end Reader

end LuaBinaryTable
