import LuaBinaryTable.Document.Equiv.Cut
import LuaBinaryTable.Document.Legal

/-!
# Reading the front of an input

Of the front of a complete input the same values are read as of the whole, up to one that the cut
changes; what is read of that one, and of the end behind it, asks for nothing that is refused
(`readDoc_shortens`, `legal_of_front`).
-/

namespace LuaBinaryTable

open BinaryReader

/-- The reader `r'` stands at the same place in the front of the input of `r`. -/
def Shortens (r r' : BinaryReader) : Prop := r'.data <+: r.data ∧ r'.p = r.p

theorem Shortens.skip {r r' : BinaryReader} (h : Shortens r r') (n : Nat) :
    Shortens (r.skip n) (r'.skip n) :=
  ⟨h.1, congrArg (· + n) h.2⟩

/-- A number inside of the front is the same. -/
theorem Shortens.readNumber {r r' : BinaryReader} (h : Shortens r r') {w : Nat}
    (hin : r'.p + w ≤ r'.data.length) : (r'.readNumber w).1 = (r.readNumber w).1 := by
  obtain ⟨⟨rest, hrest⟩, hp⟩ := h
  have hin' : r.p + w ≤ r.data.length := by
    rw [← hrest, List.length_append]
    omega
  rw [BinaryReader.readNumber, BinaryReader.readNumber, if_pos hin, if_pos hin', ← hrest, ← hp,
    List.drop_append_of_le_length (by omega), List.take_append_of_le_length]
  rw [List.length_drop]
  omega

/-! ### Values -/

section

variable (sizes : TableSizes)

/-- What is read of the front of the bytes of some values: some of them, one that the cut changes,
and what is read at the end where another one should follow. -/
inductive CutItems : List Doc → List Doc → Prop
  | last {d d' : Doc} {ds : List Doc} (legal : d'.Legal sizes) : CutItems (d :: ds) [d']
  | missing {d d' : Doc} {ds : List Doc} (legal : d'.Legal sizes) :
      CutItems (d :: ds) [d', .stop .malformed]
  | cons {d : Doc} {ds ds' : List Doc} (tail : CutItems ds ds') : CutItems (d :: ds) (d :: ds')

variable {sizes}

theorem legal_of_legalItems : ∀ {ds : List Doc}, Doc.LegalItems sizes ds →
    ∀ d ∈ ds, d.Legal sizes
  | _ :: _, hl, _, .head _ => hl.1
  | _ :: _, hl, d, .tail _ hd => legal_of_legalItems hl.2 d hd

theorem legal_of_legalEntries : ∀ {ds : List Doc}, Doc.LegalEntries sizes ds →
    ∀ d ∈ ds, d.Legal sizes
  | [_], hl, _, .head _ => hl
  | _ :: _ :: _, hl, _, .head _ => hl.1
  | _ :: _ :: _, hl, _, .tail _ (.head _) => hl.2.1
  | _ :: _ :: _, hl, d, .tail _ (.tail _ hd) => legal_of_legalEntries hl.2.2.2 d hd

theorem CutItems.legalItems {ds ds' : List Doc} (h : CutItems sizes ds ds')
    (hl : Doc.LegalItems sizes ds) : Doc.LegalItems sizes ds' := by
  induction h with
  | last legal => exact ⟨legal, trivial⟩
  | missing legal => exact ⟨legal, trivial, trivial⟩
  | cons _ ih => exact ⟨hl.1, ih hl.2⟩

theorem CutItems.legalEntries : ∀ {ds ds' : List Doc}, CutItems sizes ds ds' →
    Doc.stopsItems ds = none → Doc.LegalEntries sizes ds → Doc.LegalEntries sizes ds'
  | _, _, .last legal, _, _ => legal
  | _, _, .missing legal, _, _ => ⟨legal, trivial, nofun, trivial⟩
  | [k], _, .cons tail, _, _ => by cases tail
  | k :: v :: ds, _, .cons tail, hs, ⟨hk, _, hkey, hds⟩ => by
    have hcomplete := Doc.stopsItems_eq_none.mp hs
    have hkey : k.isKey = true := hkey (hcomplete v (by simp))
    cases tail with
    | last legal => exact ⟨hk, legal, fun _ => hkey, trivial⟩
    | missing legal => exact ⟨hk, legal, fun _ => hkey, trivial⟩
    | cons tail =>
      rw [Doc.stopsItems, Doc.stopsItems, Option.or_eq_none_iff, Option.or_eq_none_iff] at hs
      exact ⟨hk, ‹_›, fun _ => hkey, tail.legalEntries hs.2.2 hds⟩

/-- The value `x'` that the reader gets of the front is the value `x` that it gets of the whole, or
the cut has changed it, and a complete value ends past the end. -/
def CutFrom {α : Type} (P : α → α → Prop) (Complete : α → Prop) (x x' : α × BinaryReader) : Prop :=
  (x'.1 = x.1 ∧ Shortens x.2 x'.2) ∨
    (P x.1 x'.1 ∧ (Complete x'.1 → x'.2.data.length ≤ x'.2.p))

variable {pool : Nat → Doc} {n fuel : Nat}

/-- The items of the front are those of the whole input up to the one with the cut. -/
theorem readItems_shortens
    (hrd : ∀ r r' : BinaryReader, Shortens r r' → (readDoc pool fuel r).1.Complete →
      (readDoc pool fuel r).1.Legal sizes →
      CutFrom (fun _ d' => d'.Legal sizes) Doc.Complete (readDoc pool fuel r)
        (readDoc pool fuel r')) :
    ∀ (count : Nat) (r r' : BinaryReader), Shortens r r' →
      Doc.stopsItems (readItems (readDoc pool fuel) count r).1 = none →
      (∀ d ∈ (readItems (readDoc pool fuel) count r).1, d.Legal sizes) →
      CutFrom (CutItems sizes) (Doc.stopsItems · = none) (readItems (readDoc pool fuel) count r)
        (readItems (readDoc pool fuel) count r')
  | 0, _, _, h, _, _ => Or.inl ⟨rfl, h⟩
  | count + 1, r, r', h, hs, hl => by
    obtain ⟨hc, hrest⟩ := readItems_complete.mp hs
    simp only [readItems, hc, if_true] at hl ⊢
    -- the cut is behind this item, or it is in it
    rcases hrd r r' h hc (hl _ (List.mem_cons_self ..)) with ⟨heq, h'⟩ | ⟨hlegal, hend⟩
    · simp only [heq, hc, if_true]
      rcases readItems_shortens hrd count _ _ h' hrest
        (fun d hd => hl d (List.mem_cons_of_mem _ hd)) with ⟨heq', h''⟩ | ⟨hcut, hend⟩
      · left
        exact ⟨by rw [heq'], h''⟩
      · right
        refine ⟨.cons hcut, fun hs' => hend (Doc.stopsItems_eq_none.mpr fun d hd => ?_)⟩
        exact Doc.stopsItems_eq_none.mp hs' d (List.mem_cons_of_mem _ hd)
    · right
      by_cases hc' : (readDoc pool fuel r').1.Complete
      · simp only [hc', if_true]
        -- an item that is cut and still read whole ends the input, so that the next one is missing
        cases count with
        | zero => exact ⟨.last hlegal, fun _ => hend hc'⟩
        | succ count =>
          have hfuel : 0 < fuel := by
            rcases Nat.eq_zero_or_pos fuel with rfl | hpos
            · cases hc
            · exact hpos
          have hstop := readDoc_of_end pool hfuel (hend hc')
          have hnc : ¬ (Doc.stop .malformed).Complete := fun h => by cases h
          simp only [readItems, hstop, hnc, if_false]
          refine ⟨.missing hlegal, fun hs' => ?_⟩
          exact absurd (Doc.stopsItems_eq_none.mp hs' (.stop .malformed) (by simp)) hnc
      · simp only [hc', if_false]
        refine ⟨.last hlegal, fun hs' => ?_⟩
        exact absurd (Doc.stopsItems_eq_none.mp hs' _ (List.mem_singleton_self _)) hc'

/-- A value whose payload is cut is an empty table or nothing that Lua could refuse. -/
theorem legal_build_zeros (hpool : ∀ i, (pool i).Legal sizes)
    (hzero : sizes (toInt32 0) 0 = true ∧ sizes 0 (toInt32 0) = true) (type : BinaryType) :
    (type.build pool (List.replicate type.width 0) []).Legal sizes := by
  cases type with
  | tString8 | tString16 | tString32 => exact hpool _
  | tArray8 | tArray16 | tArray32 => exact ⟨hzero.1, trivial⟩
  | tTable8 | tTable16 | tTable32 => exact ⟨hzero.2, trivial⟩
  | _ => trivial

/-- The items of a legal value are legal. -/
theorem legal_items_of_build {type : BinaryType} {payload : Bytes}
    {rd : BinaryReader → Doc × BinaryReader} {r : BinaryReader}
    (h : (type.build pool payload (readItems rd (type.items payload) r).1).Legal sizes) :
    ∀ d ∈ (readItems rd (type.items payload) r).1, d.Legal sizes := by
  cases type with
  | tArray8 | tArray16 | tArray32 => exact legal_of_legalItems h.2
  | tTable8 | tTable16 | tTable32 => exact legal_of_legalEntries h.2
  | _ => exact nofun

theorem legal_build_of_cutItems (hpool : ∀ i, (pool i).Legal sizes) {type : BinaryType}
    {payload : Bytes} {ds ds' : List Doc} (hs : Doc.stopsItems ds = none)
    (hl : (type.build pool payload ds).Legal sizes) (h : CutItems sizes ds ds') :
    (type.build pool payload ds').Legal sizes := by
  cases type with
  | tString8 | tString16 | tString32 => exact hpool _
  | tArray8 | tArray16 | tArray32 => exact ⟨hl.1, h.legalItems hl.2⟩
  | tTable8 | tTable16 | tTable32 => exact ⟨hl.1, h.legalEntries hs hl.2⟩
  | _ => trivial

/-- What is read of the front of the bytes of a complete and legal value. -/
theorem readDoc_shortens (hindex : Indexes pool n) (hpool : ∀ i, (pool i).Legal sizes)
    (hzero : sizes (toInt32 0) 0 = true ∧ sizes 0 (toInt32 0) = true) :
    ∀ (fuel : Nat) (r r' : BinaryReader), Shortens r r' → (readDoc pool fuel r).1.Complete →
      (readDoc pool fuel r).1.Legal sizes →
      CutFrom (fun _ d' => d'.Legal sizes) Doc.Complete (readDoc pool fuel r)
        (readDoc pool fuel r')
  | 0, _, _, _, hc, _ => by cases hc
  | fuel + 1, r, r', h, hc, hl => by
    rcases Nat.lt_or_ge r'.p r'.data.length with hin | hend
    swap
    · right
      rw [readDoc_of_end pool (Nat.succ_pos fuel) hend]
      exact ⟨trivial, fun hc => by cases hc⟩
    generalize htype : r.readType.1 = tag
    have hread : r.readType = (tag, r.skip 1) := Prod.ext htype rfl
    have hread' : r'.readType = (tag, r'.skip 1) :=
      Prod.ext ((congrArg leNat (@Shortens.readNumber r r' h 1 hin)).trans htype) rfl
    cases hof : BinaryType.ofNat? tag with
    | none =>
      simp only [readDoc, hread, hof] at hc
      cases hc
    | some type =>
      simp only [readDoc, hread, hread', hof] at hc hl ⊢
      by_cases hwidth : r'.p + 1 + type.width ≤ r'.data.length
      · have hpayload := (h.skip 1).readNumber hwidth
        generalize hfield : ((r.skip 1).readNumber type.width).1 = payload at hpayload
        have hnum : (r.skip 1).readNumber type.width = (payload, (r.skip 1).skip type.width) :=
          Prod.ext hfield rfl
        have hnum' : (r'.skip 1).readNumber type.width = (payload, (r'.skip 1).skip type.width) :=
          Prod.ext hpayload rfl
        simp only [hnum, hnum'] at hc hl ⊢
        have hstops := ((complete_build hindex).mp hc).2
        rcases readItems_shortens (readDoc_shortens hindex hpool hzero fuel) _ _ _
          ((h.skip 1).skip type.width) hstops (legal_items_of_build hl) with
          ⟨heq, h'⟩ | ⟨hcut, hend⟩
        · left
          exact ⟨by rw [heq], h'⟩
        · right
          exact ⟨legal_build_of_cutItems hpool hstops hl hcut,
            fun hc' => hend ((complete_build hindex).mp hc').2⟩
      · -- the payload reads as zeros, behind which no values follow
        right
        have hzeros := @readNumber_of_lt (r'.skip 1) type.width (Nat.lt_of_not_le hwidth)
        simp only [hzeros, items_zeros, readItems]
        refine ⟨legal_build_zeros hpool hzero type, fun _ => ?_⟩
        show r'.data.length ≤ r'.p + 1 + type.width
        omega

end

/-! ### Files -/

/-- A file is complete where it is whole, or cut inside of a payload. -/
theorem complete_iff (data : Bytes) :
    (readDocument data).Complete ↔ WholeDocument data ∨ CutDocument data := by
  constructor
  · intro hc
    cases h : readDocument data with
    | body strs d r =>
      rw [h] at hc
      exact (whole_or_cut h hc).imp_left And.left
    | invalidFormat | invalidVersion | brokenPool =>
      rw [h] at hc
      exact hc.elim
  · rintro (⟨strs, body, rest, hs, hbody, rfl⟩ | hcut)
    · obtain ⟨d, hc, h⟩ := readDocument_of_isValue hs hbody rest
      rw [h]
      exact hc
    · obtain ⟨strs, d, r, h, hc, _⟩ := hcut.readDocument
      rw [h]
      exact hc

/-- The proper front of a file that is read up to its last byte is not whole. -/
theorem not_wholeDocument_of_front {data front : Bytes} {strs : List Bytes} {d : Doc}
    {r : BinaryReader} (h : readDocument data = .body strs d r) (hr : r.p = data.length)
    (hfront : front <+: data) (hne : front ≠ data) : ¬ WholeDocument front := by
  rintro ⟨strs', body, rest, hs, hbody, rfl⟩
  have hlt := lt_of_le_of_ne hfront.length_le fun heq => hne (hfront.eq_of_length heq)
  obtain ⟨suffix, rfl⟩ := hfront
  have hassoc : Doc.encodeHead strs' ++ (body ++ rest) ++ suffix =
      Doc.encodeHead strs' ++ (body ++ (rest ++ suffix)) := by
    simp only [List.append_assoc]
  obtain ⟨_, _, h'⟩ := readDocument_of_isValue hs hbody (rest ++ suffix)
  rw [hassoc, h'] at h
  obtain ⟨_, _, rfl⟩ := Reading.body.inj h
  -- the cursor stops behind `body`, which the front still holds
  rw [← hr] at hlt
  simp only [List.length_append] at hlt
  omega

theorem legal_poolDoc (sizes : TableSizes) (t : LuaTable) (size i : Nat) :
    (poolDoc t size i).Legal sizes := by
  unfold poolDoc
  split_ifs
  · split <;> trivial
  · trivial

/-- The front of a complete and legal file asks for nothing that is refused. -/
theorem legal_of_front {sizes : TableSizes}
    (hzero : sizes (toInt32 0) 0 = true ∧ sizes 0 (toInt32 0) = true) {front rest : Bytes}
    {strs : List Bytes} {d : Doc} {r : BinaryReader}
    (h : readDocument (front ++ rest) = .body strs d r) (hc : d.Complete)
    (hl : (readDocument (front ++ rest)).Legal sizes) : (readDocument front).Legal sizes := by
  obtain ⟨hsize, hlegal⟩ : sizes (toInt32 strs.length) 0 = true ∧ d.Legal sizes := by
    rw [h] at hl
    exact hl
  cases hfront : readDocument front with
  | invalidFormat => trivial
  | invalidVersion => trivial
  | brokenPool size strs' =>
    obtain ⟨hcount, hbroken⟩ := readDocument_brokenPool hfront
    have hne : size ≠ 0 := by
      rintro rfl
      cases hbroken
    have hin := add_le_of_readNumber (hcount ▸ hne)
    have hsame := @Shortens.readNumber ⟨front ++ rest, 4⟩ ⟨front, 4⟩
      ⟨List.prefix_append front rest, rfl⟩ stringPoolLengthSize hin
    obtain ⟨_, _, _, hpool, _⟩ := readDocument_body h
    show sizes (toInt32 size) 0 = true
    rw [hcount, hsame, ← (ahead_of_readPool hpool).1]
    exact hsize
  | body strs' d' r' =>
    rcases Nat.lt_or_ge front.length 8 with hlt | hge
    · obtain ⟨rfl, rfl⟩ := body_of_short hfront hlt
      exact ⟨hzero.1, trivial⟩
    · obtain ⟨hs, body, rfl⟩ := exists_encodeHead hfront hge
      rw [readDocument_encodeHead hs] at hfront
      obtain ⟨_, rfl, rfl⟩ := Reading.body.inj hfront
      rw [List.append_assoc, readDocument_encodeHead hs] at h
      obtain ⟨rfl, rfl, rfl⟩ := Reading.body.inj h
      refine ⟨hsize, ?_⟩
      have hshort : Shortens
          ⟨Doc.encodeHead strs' ++ (body ++ rest), (Doc.encodeHead strs').length⟩
          ⟨Doc.encodeHead strs' ++ body, (Doc.encodeHead strs').length⟩ := by
        refine ⟨?_, rfl⟩
        rw [← List.append_assoc]
        exact List.prefix_append _ _
      -- the fuel of the longer run is enough for both
      rw [readDoc_fuel _ _ ((Doc.encodeHead strs' ++ (body ++ rest)).length + 1) _
        (by simp only [List.length_append]; omega) (by simp only [List.length_append]; omega)]
      rcases readDoc_shortens (indexes_poolDoc (fillPool 0 .empty strs') strs'.length)
        (legal_poolDoc sizes _ _) hzero _ _ _ hshort hc hlegal with ⟨heq, _⟩ | ⟨hlegal', _⟩
      · rw [heq]
        exact hlegal
      · exact hlegal'

end LuaBinaryTable
