import LuaBinaryTable.Document.Equiv.Materialise
import LuaBinaryTable.Document.Read

/-!
# Facts about reading

Every value lies behind a tag byte inside the input, so the cursor moves on by at least one for each
(`readDoc_of_end`, `lt_readDoc`), and one unit of fuel more than there are bytes left is enough
(`readDoc_fuel`, `outcome_readDocument`).
-/

namespace LuaBinaryTable

/-! ### The cursor -/

theorem BinaryReader.readType_snd (r : BinaryReader) :
    r.readType.2 = { r with p := r.p + 1 } := rfl

theorem BinaryReader.readNumber_snd (w : Nat) (r : BinaryReader) :
    (r.readNumber w).2 = { r with p := r.p + w } := rfl

/-- Past the end the tag reads as `T_EOF`. -/
theorem BinaryReader.readType_of_end {r : BinaryReader} (h : r.data.length ≤ r.p) :
    r.readType.1 = 0 := by
  rw [readType, readNumber, if_neg (by omega)]
  rfl

variable {rd : BinaryReader → Doc × BinaryReader}

/-- What holds of the cursor before each of a number of values, and of the documents read there. -/
theorem readItems_induction {I : BinaryReader → Prop} {P : Doc → Prop}
    (hI : ∀ r, I r → I (rd r).2) (hP : ∀ r, I r → P (rd r).1) :
    ∀ (n : Nat) (r : BinaryReader), I r →
      I (readItems rd n r).2 ∧ ∀ d ∈ (readItems rd n r).1, P d
  | 0, r, hr => ⟨hr, by simp [readItems]⟩
  | n + 1, r, hr => by
    by_cases hc : (rd r).1.Complete
    · obtain ⟨h1, h2⟩ := readItems_induction hI hP n (rd r).2 (hI r hr)
      simp only [readItems, hc, if_true]
      refine ⟨h1, fun d hd => ?_⟩
      rcases List.mem_cons.mp hd with rfl | hd
      · exact hP r hr
      · exact h2 d hd
    · simp only [readItems, hc, if_false]
      exact ⟨hI r hr, fun d hd => List.mem_singleton.mp hd ▸ hP r hr⟩

/-- Reading keeps the input and moves the cursor forward. -/
theorem readDoc_forward (pool : Nat → Doc) : ∀ (fuel : Nat) (r : BinaryReader),
    (readDoc pool fuel r).2.data = r.data ∧ r.p ≤ (readDoc pool fuel r).2.p
  | 0, r => ⟨rfl, le_rfl⟩
  | fuel + 1, r => by
    simp only [readDoc, BinaryReader.readType_snd]
    cases BinaryType.ofNat? r.readType.1 with
    | none => exact ⟨rfl, Nat.le_succ _⟩
    | some type =>
      have h := (readItems_induction (I := fun r' => r'.data = r.data ∧ r.p ≤ r'.p)
        (P := fun _ => True)
        (fun r' hr' => ⟨(readDoc_forward pool fuel r').1.trans hr'.1,
          hr'.2.trans (readDoc_forward pool fuel r').2⟩) (fun _ _ => trivial)
        (type.items (BinaryReader.readNumber type.width ⟨r.data, r.p + 1⟩).1)
        ⟨r.data, r.p + 1 + type.width⟩ ⟨rfl, by simp only; omega⟩).1
      exact h

/-- Readers that agree wherever the cursor can come read the same values. -/
theorem readItems_congr {rd' : BinaryReader → Doc × BinaryReader} {I : BinaryReader → Prop}
    (hI : ∀ r, I r → I (rd r).2) (h : ∀ r, I r → rd r = rd' r) :
    ∀ (n : Nat) (r : BinaryReader), I r → readItems rd n r = readItems rd' n r
  | 0, _, _ => rfl
  | n + 1, r, hr => by
    have hrest := readItems_congr hI h n (rd r).2 (hI r hr)
    rw [h r hr] at hrest
    simp only [readItems, h r hr, hrest]

/-! ### Fuel -/

/-- At the end of the input no value is read. -/
theorem readDoc_of_end (pool : Nat → Doc) {fuel : Nat} (hf : 0 < fuel) {r : BinaryReader}
    (h : r.data.length ≤ r.p) : (readDoc pool fuel r).1 = .stop .malformed := by
  obtain ⟨fuel, rfl⟩ := Nat.exists_eq_succ_of_ne_zero hf.ne'
  simp only [readDoc, BinaryReader.readType_of_end h]
  rfl

/-- The cursor is behind the tag byte of the value at `r`. -/
def Behind (r r' : BinaryReader) : Prop := r'.data = r.data ∧ r.p + 1 ≤ r'.p

theorem Behind.readDoc {r r' : BinaryReader} (h : Behind r r') (pool : Nat → Doc) (fuel : Nat) :
    Behind r (readDoc pool fuel r').2 :=
  ⟨(readDoc_forward pool fuel r').1.trans h.1, h.2.trans (readDoc_forward pool fuel r').2⟩

theorem behind_readNumber (r : BinaryReader) (w : Nat) : Behind r (r.readType.2.readNumber w).2 :=
  ⟨rfl, by simp only [BinaryReader.readNumber_snd, BinaryReader.readType_snd]; omega⟩

theorem Behind.left_lt {r r' : BinaryReader} (h : Behind r r') {fuel : Nat}
    (hf : r.data.length - r.p < fuel + 1) (hr : r.p < r.data.length) :
    r'.data.length - r'.p < fuel := by
  rw [h.1]
  have := h.2
  omega

/-- With more fuel than there are bytes left, the fuel does not matter. -/
theorem readDoc_fuel (pool : Nat → Doc) : ∀ (fuel fuel' : Nat) (r : BinaryReader),
    r.data.length - r.p < fuel → r.data.length - r.p < fuel' →
    readDoc pool fuel r = readDoc pool fuel' r
  | fuel + 1, fuel' + 1, r, hf, hf' => by
    simp only [readDoc]
    cases htype : BinaryType.ofNat? r.readType.1 with
    | none => rfl
    | some type =>
      simp only
      rcases Nat.lt_or_ge r.p r.data.length with hr | hr
      · rw [readItems_congr (I := Behind r) (fun r' h => h.readDoc pool fuel)
          (fun r' h => readDoc_fuel pool fuel fuel' r' (h.left_lt hf hr) (h.left_lt hf' hr)) _ _
          (behind_readNumber r _)]
      · rw [BinaryReader.readType_of_end hr] at htype
        cases htype
        rfl

theorem exists_of_stopsItems : ∀ {ds : List Doc} {w : Stop}, Doc.stopsItems ds = some w →
    ∃ d ∈ ds, d.stops = some w
  | d :: ds, w, h => by
    rw [Doc.stopsItems] at h
    cases hd : d.stops with
    | some w' =>
      rw [hd] at h
      exact ⟨d, List.mem_cons_self .., hd.trans h⟩
    | none =>
      rw [hd] at h
      obtain ⟨d', hd', h'⟩ := exists_of_stopsItems h
      exact ⟨d', List.mem_cons_of_mem _ hd', h'⟩

/-- Only the pool, a missing value and the values that follow can break a value off. -/
theorem stops_build {type : BinaryType} {pool : Nat → Doc} {b : Bytes} {ds : List Doc} {w : Stop}
    (h : (type.build pool b ds).stops = some w) :
    w = .malformed ∨ (pool (leNat b)).stops = some w ∨ Doc.stopsItems ds = some w := by
  cases type with
  | tEof => exact Or.inl (Option.some.inj h).symm
  | tString8 | tString16 | tString32 => exact Or.inr (Or.inl h)
  | tArray8 | tArray16 | tArray32 | tTable8 | tTable16 | tTable32 => exact Or.inr (Or.inr h)
  | _ => cases h

/-- With more fuel than there are bytes left, no nesting exceeds it. -/
theorem readDoc_ne_deep {pool : Nat → Doc} (hpool : ∀ i, (pool i).stops ≠ some .deep) :
    ∀ (fuel : Nat) (r : BinaryReader), r.data.length - r.p < fuel →
      (readDoc pool fuel r).1.stops ≠ some .deep
  | fuel + 1, r, hf => by
    simp only [readDoc]
    cases htype : BinaryType.ofNat? r.readType.1 with
    | none => simp [Doc.stops]
    | some type =>
      intro h
      rcases Nat.lt_or_ge r.p r.data.length with hr | hr
      · rcases stops_build h with h | h | h
        · cases h
        · exact hpool _ h
        · obtain ⟨d, hd, hs⟩ := exists_of_stopsItems h
          exact (readItems_induction (I := Behind r) (P := fun d => d.stops ≠ some .deep)
            (fun r' h => h.readDoc pool fuel)
            (fun r' h => readDoc_ne_deep hpool fuel r' (h.left_lt hf hr)) _ _
            (behind_readNumber r _)).2 d hd hs
      · rw [BinaryReader.readType_of_end hr] at htype
        cases htype
        cases h

theorem poolDoc_ne_deep (t : LuaTable) (size i : Nat) :
    (poolDoc t size i).stops ≠ some .deep := by
  unfold poolDoc
  split_ifs
  · split <;> simp [Doc.stops]
  · simp [Doc.stops]

mutual

/-- The decoder runs out of fuel only where the document says so. -/
theorem Doc.deep_of_outcome (sizes : TableSizes) : ∀ (d : Doc), d.outcome sizes = .diverges →
    d.stops = some .deep
  | .array _ items, h => by
    rw [outcome] at h
    split_ifs at h
    exact deep_of_outcomeItems sizes items h
  | .table _ items, h => by
    rw [outcome] at h
    split_ifs at h
    exact deep_of_outcomeEntries sizes items h
  | .stop why, h => by
    cases why <;> first | rfl | cases h
  | .nil, h | .boolean _, h | .integer _, h | .double _, h | .string _, h | .emptyTable, h => by
    cases h

theorem Doc.deep_of_outcomeItems (sizes : TableSizes) : ∀ (ds : List Doc),
    outcomeItems sizes ds = .diverges → stopsItems ds = some .deep
  | d :: ds, h => by
    rw [outcomeItems] at h
    rw [stopsItems]
    cases ho : d.outcome sizes with
    | complete =>
      rw [ho] at h
      rw [complete_of_outcome sizes d ho, deep_of_outcomeItems sizes ds h]
      rfl
    | diverges => rw [deep_of_outcome sizes d ho]; rfl
    | fails | raises => rw [ho] at h; cases h

theorem Doc.deep_of_outcomeEntries (sizes : TableSizes) : ∀ (ds : List Doc),
    outcomeEntries sizes ds = .diverges → stopsItems ds = some .deep
  | [k], h => by rw [stopsItems, deep_of_outcome sizes k h]; rfl
  | k :: v :: ds, h => by
    rw [outcomeEntries] at h
    rw [stopsItems, stopsItems]
    cases hk : k.outcome sizes with
    | complete =>
      rw [complete_of_outcome sizes k hk]
      rw [hk, Outcome.complete_andThen] at h
      cases hv : v.outcome sizes with
      | complete =>
        rw [complete_of_outcome sizes v hv]
        rw [hv, Outcome.complete_andThen] at h
        split_ifs at h
        rw [deep_of_outcomeEntries sizes ds h]
        rfl
      | diverges => rw [deep_of_outcome sizes v hv]; rfl
      | fails | raises => rw [hv] at h; cases h
    | diverges => rw [deep_of_outcome sizes k hk]; rfl
    | fails | raises => rw [hk] at h; cases h

end

theorem BinaryReader.readBytes_data (n : Nat) (r : BinaryReader) :
    (r.readBytes n).2.data = r.data := by
  unfold readBytes
  split_ifs <;> rfl

/-- Reading the pool moves the cursor and nothing else. -/
theorem readPool_data : ∀ (n : Nat) (r : BinaryReader), (readPool n r).2.2.data = r.data
  | 0, _ => rfl
  | n + 1, r => by
    have hb := BinaryReader.readBytes_data (leNat (r.readNumber stringLengthSize).1)
      (r.readNumber stringLengthSize).2
    simp only [readPool]
    split_ifs
    · rfl
    · split
      · rename_i r' h
        rw [h] at hb
        exact hb
      · rename_i str r' h
        rw [h] at hb
        exact (readPool_data n r').trans hb

/-- How a body is reached: past a good header and a complete pool. -/
theorem readDocument_body {data : Bytes} {strs : List Bytes} {d : Doc} {r : BinaryReader}
    (h : readDocument data = .body strs d r) :
    leNat (BinaryReader.readNumber 2 ⟨data, 0⟩).1 = magicNumber ∧
      leNat (BinaryReader.readNumber 2 ⟨data, 2⟩).1 = luabtVersion ∧
      ∃ r₀, readPool (leNat (BinaryReader.readNumber stringPoolLengthSize ⟨data, 4⟩).1) ⟨data, 8⟩ =
          (strs, true, r₀) ∧ r₀.data = data ∧
        (d, r) = readDoc (poolDoc (fillPool 0 LuaTable.empty strs) strs.length)
          (data.length + 1) r₀ := by
  simp only [readDocument, BinaryReader.readNumber_snd, Nat.zero_add, Nat.reduceAdd] at h
  by_cases hm : leNat (BinaryReader.readNumber 2 ⟨data, 0⟩).1 = magicNumber
  swap
  · rw [if_pos hm] at h
    cases h
  rw [if_neg (not_not.mpr hm)] at h
  by_cases hv : leNat (BinaryReader.readNumber 2 ⟨data, 2⟩).1 = luabtVersion
  swap
  · rw [if_pos hv] at h
    cases h
  rw [if_neg (not_not.mpr hv)] at h
  refine ⟨hm, hv, ?_⟩
  cases hpool : readPool (leNat (BinaryReader.readNumber stringPoolLengthSize
      ⟨data, 4⟩).1) ⟨data, 4 + stringPoolLengthSize⟩ with
  | mk strs' rest =>
    obtain ⟨ok, r₀⟩ := rest
    rw [hpool] at h
    cases ok with
    | false => cases h
    | true =>
      simp only [Reading.body.injEq] at h
      obtain ⟨rfl, rfl, rfl⟩ := h
      refine ⟨r₀, hpool, ?_, rfl⟩
      have := readPool_data (leNat (BinaryReader.readNumber stringPoolLengthSize
        ⟨data, 4⟩).1) ⟨data, 4 + stringPoolLengthSize⟩
      rw [hpool] at this
      exact this

/-- A pool that breaks off has as many strings as the header says. -/
theorem readDocument_brokenPool {data : Bytes} {size : Nat} {strs : List Bytes}
    (h : readDocument data = .brokenPool size strs) :
    size = leNat (BinaryReader.readNumber stringPoolLengthSize ⟨data, 4⟩).1 ∧
      (readPool size ⟨data, 8⟩).2.1 = false := by
  simp only [readDocument, BinaryReader.readNumber_snd, Nat.zero_add, Nat.reduceAdd] at h
  split_ifs at h
  cases hpool : readPool (leNat (BinaryReader.readNumber stringPoolLengthSize
      ⟨data, 4⟩).1) ⟨data, 4 + stringPoolLengthSize⟩ with
  | mk strs' rest =>
    obtain ⟨ok, r₀⟩ := rest
    rw [hpool] at h
    cases ok with
    | true => cases h
    | false =>
      obtain ⟨rfl, _⟩ := Reading.brokenPool.inj h
      exact ⟨rfl, congrArg (·.2.1) hpool⟩

/-- `parseBinaryTable` has fuel enough for every input. -/
theorem outcome_readDocument (sizes : TableSizes) (data : Bytes) :
    (readDocument data).outcome sizes ≠ .diverges := by
  cases h : readDocument data with
  | invalidFormat | invalidVersion _ => simp [Reading.outcome]
  | brokenPool size strs =>
    rw [Reading.outcome]
    split_ifs <;> decide
  | body strs d r =>
    obtain ⟨_, _, r₀, _, hdata, hd⟩ := readDocument_body h
    rw [Reading.outcome]
    split_ifs
    · intro ho
      have hdeep := readDoc_ne_deep
        (poolDoc_ne_deep (fillPool 0 LuaTable.empty strs) strs.length) (data.length + 1) r₀
        (by rw [hdata]; omega)
      rw [← hd] at hdeep
      exact hdeep (Doc.deep_of_outcome sizes d ho)
    · decide

end LuaBinaryTable
