import LuaBinaryTable.Document.Cut
import LuaBinaryTable.Document.Equiv.Encode

/-!
# What the decoder makes of a cut

A value is read completely exactly where a whole value stands at the cursor, which then moves behind
it (`readDoc_of_isValue`), or where a cut one does, which leaves the cursor past the end
(`readDoc_of_isCut`, `readDoc_complete`).
-/

namespace LuaBinaryTable

open BinaryReader

/-! ### Tags -/

theorem value_of_ofNat? {n : Nat} {type : BinaryType} (h : BinaryType.ofNat? n = some type) :
    type.value = n := by
  obtain ⟨hlt, hget⟩ := List.getElem?_eq_some_iff.mp h
  have hall : ∀ i (hi : i < BinaryType.all.length), BinaryType.all[i].value = i := by decide
  rw [← hget]
  exact hall n hlt

/-- The tag of a value at the cursor. -/
theorem readType_of_tag {r : BinaryReader} {type : BinaryType} {bs : Bytes}
    (h : r.Ahead (UInt8.ofNat type.value :: bs)) : r.readType = (type.value, r.skip 1) := by
  have htag := readNumber_of_ahead (@Ahead.left r [UInt8.ofNat type.value] bs h)
  rw [List.length_singleton] at htag
  simp only [readType, htag, leNat, BinaryType.toNat_ofNat_value]
  rfl

/-- No value follows a payload of zeros. -/
theorem items_zeros (type : BinaryType) : type.items (List.replicate type.width 0) = 0 := by
  cases type <;> rfl

/-- A payload of zeros stands for a value. -/
theorem stands_zeros {type : BinaryType} (hw : 0 < type.width) (n : Nat) :
    type.Stands n (List.replicate type.width 0) := by
  cases type with
  | tEof => exact absurd hw (lt_irrefl 0)
  | tString8 | tString16 | tString32 => exact Nat.zero_le n
  | _ => trivial

/-- The indices up to `n` stand for a value. -/
def Indexes (pool : Nat → Doc) (n : Nat) : Prop := ∀ i, (pool i).Complete ↔ i ≤ n

theorem indexes_poolDoc (t : LuaTable) (n : Nat) : Indexes (poolDoc t n) n := by
  intro i
  unfold poolDoc
  split_ifs with hi
  · refine iff_of_true ?_ hi
    split <;> rfl
  · refine iff_of_false ?_ hi
    intro hc
    cases hc

variable {pool : Nat → Doc} {n : Nat}

/-- A value is complete exactly where the tag stands for one and the values in it are complete. -/
theorem complete_build (hpool : Indexes pool n) {type : BinaryType} {payload : Bytes}
    {rd : BinaryReader → Doc × BinaryReader} {r : BinaryReader} :
    (type.build pool payload (readItems rd (type.items payload) r).1).Complete ↔
      type.Stands n payload ∧ Doc.stopsItems (readItems rd (type.items payload) r).1 = none := by
  cases type with
  | tEof => exact iff_of_false (fun h => by cases h) fun h => h.1
  | tString8 | tString16 | tString32 =>
    exact (hpool _).trans (iff_self_and.mpr fun _ => rfl)
  | tArray8 | tArray16 | tArray32 | tTable8 | tTable16 | tTable32 =>
    exact iff_and_self.mpr fun _ => trivial
  | _ => exact iff_of_true rfl ⟨trivial, rfl⟩

/-- The first of some complete values, and the others. -/
theorem readItems_complete {rd : BinaryReader → Doc × BinaryReader} {count : Nat}
    {r : BinaryReader} :
    Doc.stopsItems (readItems rd (count + 1) r).1 = none ↔
      (rd r).1.Complete ∧ Doc.stopsItems (readItems rd count (rd r).2).1 = none := by
  by_cases hc : (rd r).1.Complete
  · simp only [readItems, hc, if_true, true_and]
    rw [Doc.stopsItems, hc, Option.none_or]
  · simp only [readItems, hc, if_false, false_and, iff_false]
    rw [Doc.stopsItems, Option.or_eq_none_iff]
    exact fun h => hc h.1

theorem readItems_succ_snd {rd : BinaryReader → Doc × BinaryReader} {r : BinaryReader}
    (hc : (rd r).1.Complete) (count : Nat) :
    (readItems rd (count + 1) r).2 = (readItems rd count (rd r).2).2 := by
  simp only [readItems, hc, if_true]

/-! ### Whole values -/

mutual

/-- A whole value is read completely, up to its last byte. -/
theorem readDoc_of_isValue (hpool : Indexes pool n) : ∀ {b : Bytes}, IsValue n b →
    ∀ (fuel : Nat) {r : BinaryReader}, b.length ≤ fuel → r.Ahead b →
      (readDoc pool fuel r).1.Complete ∧ (readDoc pool fuel r).2 = r.skip b.length
  | _, .node _ _ _, 0, _, hf, _ => by cases hf
  | _, @IsValue.node _ type payload bs width stands items, fuel + 1, r, hf, ha => by
    have htail : (r.skip 1).Ahead (payload ++ bs) :=
      @Ahead.right r [UInt8.ofNat type.value] _ ha
    have hpayload := readNumber_of_ahead htail.left
    have hitems := htail.right
    rw [List.length_cons, List.length_append, width] at hf
    rw [skip_skip, width] at hitems
    obtain ⟨hstops, hr⟩ := readItems_of_isItems hpool items fuel (by omega) hitems
    rw [width, skip_skip] at hpayload
    simp only [readDoc, readType_of_tag ha, BinaryType.ofNat?_value, hpayload]
    refine ⟨(complete_build hpool).mpr ⟨stands, hstops⟩, ?_⟩
    rw [hr, skip_skip, List.length_cons, List.length_append, width]
    congr 1
    omega

theorem readItems_of_isItems (hpool : Indexes pool n) : ∀ {count : Nat} {bs : Bytes},
    IsItems n count bs → ∀ (fuel : Nat) {r : BinaryReader}, bs.length ≤ fuel → r.Ahead bs →
      Doc.stopsItems (readItems (readDoc pool fuel) count r).1 = none ∧
        (readItems (readDoc pool fuel) count r).2 = r.skip bs.length
  | _, _, .nil, _, _, _, _ => ⟨rfl, rfl⟩
  | _, _, .cons head tail, fuel, r, hf, ha => by
    rw [List.length_append] at hf
    obtain ⟨hc, hr⟩ := readDoc_of_isValue hpool head fuel (by omega) ha.left
    obtain ⟨hstops, hr'⟩ := readItems_of_isItems hpool tail fuel (by omega) ha.right
    rw [← hr] at hstops hr'
    refine ⟨readItems_complete.mpr ⟨hc, hstops⟩, ?_⟩
    rw [readItems_succ_snd hc, hr', hr, skip_skip, List.length_append]

end

/-! ### Cut values -/

/-- The bytes `bs` are all that is left. -/
def BinaryReader.Left (r : BinaryReader) (bs : Bytes) : Prop :=
  r.data.drop r.p = bs ∧ r.p ≤ r.data.length

theorem BinaryReader.Left.ahead {r : BinaryReader} {bs : Bytes} (h : r.Left bs) : r.Ahead bs :=
  h.1 ▸ List.prefix_refl _

theorem BinaryReader.Left.length_eq {r : BinaryReader} {bs : Bytes} (h : r.Left bs) :
    r.data.length = r.p + bs.length := by
  have hlen := congrArg List.length h.1
  have hle := h.2
  rw [List.length_drop] at hlen
  omega

theorem BinaryReader.Left.right {r : BinaryReader} {bs cs : Bytes} (h : r.Left (bs ++ cs)) :
    (r.skip bs.length).Left cs := by
  have hlen := h.length_eq
  rw [List.length_append] at hlen
  constructor
  · show r.data.drop (r.p + bs.length) = cs
    rw [← List.drop_drop, h.1, List.drop_left]
  · show r.p + bs.length ≤ r.data.length
    omega

/-- Values follow only tags that stand for one. -/
theorem stands_of_isCutItems {type : BinaryType} {payload bs : Bytes}
    (h : IsCutItems n (type.items payload) bs) : type.Stands n payload := by
  have hne : type.items payload ≠ 0 := by
    generalize type.items payload = count at h
    cases h with
    | last => exact Nat.one_ne_zero
    | cons => exact Nat.succ_ne_zero _
  cases type with
  | tEof | tString8 | tString16 | tString32 => exact absurd rfl hne
  | _ => trivial

mutual

/-- A cut value is read completely as well, and the cursor ends past the end of the input. -/
theorem readDoc_of_isCut (hpool : Indexes pool n) : ∀ {b : Bytes}, IsCut n b →
    ∀ (fuel : Nat) {r : BinaryReader}, b.length ≤ fuel → r.Left b →
      (readDoc pool fuel r).1.Complete ∧ r.data.length < (readDoc pool fuel r).2.p
  | _, .payload _, 0, _, hf, _ => by cases hf
  | _, .items _ _, 0, _, hf, _ => by cases hf
  | _, @IsCut.payload _ type payload short, fuel + 1, r, _, hl => by
    have hlen := hl.length_eq
    rw [List.length_cons] at hlen
    -- a number that is not there is read as zero, and the cursor passes over it
    have hzeros := @readNumber_of_lt (r.skip 1) type.width (by
      show r.data.length < r.p + 1 + type.width
      omega)
    simp only [readDoc, readType_of_tag hl.ahead, BinaryType.ofNat?_value, hzeros]
    refine ⟨(complete_build hpool).mpr ⟨stands_zeros (by omega) n, ?_⟩, ?_⟩
    · rw [items_zeros]
      rfl
    · rw [items_zeros]
      show r.data.length < r.p + 1 + type.width
      omega
  | _, @IsCut.items _ type payload bs width items, fuel + 1, r, hf, hl => by
    have htail : (r.skip 1).Left (payload ++ bs) :=
      @Left.right r [UInt8.ofNat type.value] _ hl
    have hpayload := readNumber_of_ahead htail.ahead.left
    have hitems := htail.right
    rw [List.length_cons, List.length_append] at hf
    obtain ⟨hstops, hlt⟩ := readItems_of_isCutItems hpool items fuel (by omega) hitems
    rw [width] at hpayload hstops hlt
    simp only [readDoc, readType_of_tag hl.ahead, BinaryType.ofNat?_value, hpayload]
    exact ⟨(complete_build hpool).mpr ⟨stands_of_isCutItems items, hstops⟩, hlt⟩

theorem readItems_of_isCutItems (hpool : Indexes pool n) : ∀ {count : Nat} {bs : Bytes},
    IsCutItems n count bs → ∀ (fuel : Nat) {r : BinaryReader}, bs.length ≤ fuel → r.Left bs →
      Doc.stopsItems (readItems (readDoc pool fuel) count r).1 = none ∧
        r.data.length < (readItems (readDoc pool fuel) count r).2.p
  | _, _, .last cut, fuel, r, hf, hl => by
    obtain ⟨hc, hlt⟩ := readDoc_of_isCut hpool cut fuel hf hl
    refine ⟨readItems_complete.mpr ⟨hc, rfl⟩, ?_⟩
    rw [readItems_succ_snd hc]
    exact hlt
  | _, _, .cons head tail, fuel, r, hf, hl => by
    rw [List.length_append] at hf
    obtain ⟨hc, hr⟩ := readDoc_of_isValue hpool head fuel (by omega) hl.ahead.left
    obtain ⟨hstops, hlt⟩ := readItems_of_isCutItems hpool tail fuel (by omega) hl.right
    rw [← hr] at hstops hlt
    refine ⟨readItems_complete.mpr ⟨hc, hstops⟩, ?_⟩
    rw [readItems_succ_snd hc]
    have hdata := (readDoc_forward pool fuel r).1
    rwa [hdata] at hlt

end

/-! ### Every complete reading -/

/-- The cursor stands behind a whole value, or past the end behind a cut one. -/
def WholeOrCut (whole cut : Bytes → Prop) (r r' : BinaryReader) : Prop :=
  (∃ b, whole b ∧ r.Ahead b ∧ r.p + b.length ≤ r.data.length ∧ r' = r.skip b.length) ∨
    (cut (r.data.drop r.p) ∧ r.data.length < r'.p)

/-- Items that are read completely are all there, or the last of them is cut. -/
theorem readItems_wholeOrCut {fuel : Nat}
    (hrd : ∀ r : BinaryReader, r.p ≤ r.data.length → (readDoc pool fuel r).1.Complete →
      WholeOrCut (IsValue n) (IsCut n) r (readDoc pool fuel r).2) :
    ∀ (count : Nat) (r : BinaryReader), r.p ≤ r.data.length →
      Doc.stopsItems (readItems (readDoc pool fuel) count r).1 = none →
      WholeOrCut (IsItems n count) (IsCutItems n count) r (readItems (readDoc pool fuel) count r).2
  | 0, r, hle, _ => Or.inl ⟨[], .nil, List.nil_prefix, hle, rfl⟩
  | count + 1, r, hle, hs => by
    obtain ⟨hc, hrest⟩ := readItems_complete.mp hs
    rw [readItems_succ_snd hc]
    rcases hrd r hle hc with ⟨b, hb, ha, hin, hr⟩ | ⟨hcut, hlt⟩
    · rw [hr] at hrest ⊢
      rcases readItems_wholeOrCut hrd count (r.skip b.length) hin hrest with
        ⟨bs, hbs, ha', hin', hr'⟩ | ⟨hcut, hlt⟩
      · left
        refine ⟨b ++ bs, .cons hb hbs, ha.append ha', ?_, ?_⟩
        · rw [List.length_append, ← Nat.add_assoc]
          exact hin'
        · rw [hr', skip_skip, List.length_append]
      · right
        refine ⟨?_, hlt⟩
        rw [ha.drop_eq]
        exact .cons hb hcut
    · -- behind a cut value there is no other
      cases count with
      | zero => exact Or.inr ⟨.last hcut, hlt⟩
      | succ count =>
        have hnext := (readItems_complete.mp hrest).1
        have hdata := (readDoc_forward pool fuel r).1
        cases fuel with
        | zero => cases hnext
        | succ fuel =>
          rw [readDoc_of_end pool (Nat.succ_pos fuel) (by rw [hdata]; exact hlt.le)] at hnext
          cases hnext

/-- The tag and the payload in front of such items. -/
theorem node_wholeOrCut {rd : BinaryReader → Doc × BinaryReader} {type : BinaryType}
    {payload : Bytes} {r r₁ : BinaryReader}
    (htag : r.data.drop r.p = UInt8.ofNat type.value :: r.data.drop (r.p + 1))
    (hread : (r.skip 1).readNumber type.width = (payload, r₁)) (hstands : type.Stands n payload)
    (hitems : r₁.p ≤ r₁.data.length →
      WholeOrCut (IsItems n (type.items payload)) (IsCutItems n (type.items payload)) r₁
        (readItems rd (type.items payload) r₁).2) :
    WholeOrCut (IsValue n) (IsCut n) r (readItems rd (type.items payload) r₁).2 := by
  have hin₁ := congrArg List.length htag
  rw [List.length_cons, List.length_drop, List.length_drop] at hin₁
  rcases Nat.lt_or_ge r.data.length (r.p + 1 + type.width) with hlt | hin
  · -- the payload reads as zeros, behind which no values follow
    right
    rw [@readNumber_of_lt (r.skip 1) _ hlt] at hread
    obtain ⟨rfl, rfl⟩ := Prod.mk.inj hread
    rw [items_zeros]
    refine ⟨?_, hlt⟩
    rw [htag]
    apply IsCut.payload
    rw [List.length_drop]
    omega
  · have hwidth := length_readNumber type.width (r.skip 1)
    have hsplit := (@ahead_readNumber (r.skip 1) _ hin).drop_eq
    have hr₁ : r₁ = (r.skip 1).skip type.width := congrArg Prod.snd hread.symm
    rw [hwidth, hread] at hsplit
    rw [hread] at hwidth
    subst hr₁
    have hall := hitems hin
    have hbytes : r.data.drop r.p =
        UInt8.ofNat type.value :: (payload ++ r.data.drop (r.p + 1 + type.width)) :=
      htag.trans (congrArg _ hsplit)
    rcases hall with ⟨bs, hbs, ha, hle, hr⟩ | ⟨hcut, hpast⟩
    · left
      refine ⟨_, .node hwidth hstands hbs, ?_, ?_, ?_⟩
      · show UInt8.ofNat type.value :: (payload ++ bs) <+: r.data.drop r.p
        rw [hbytes]
        exact (List.prefix_cons_inj _).mpr ((List.prefix_append_right_inj payload).mpr ha)
      · rw [List.length_cons, List.length_append, hwidth]
        have hle' : r.p + 1 + type.width + bs.length ≤ r.data.length := hle
        omega
      · rw [hr]
        show ((r.skip 1).skip type.width).skip bs.length = _
        rw [skip_skip, skip_skip, List.length_cons, List.length_append, hwidth]
        apply congrArg
        omega
    · right
      refine ⟨?_, hpast⟩
      rw [hbytes]
      exact .items hwidth hcut

/-- A complete value is whole, or it is cut and the cursor is past the end. -/
theorem readDoc_complete (hpool : Indexes pool n) : ∀ (fuel : Nat) (r : BinaryReader),
    r.p ≤ r.data.length → (readDoc pool fuel r).1.Complete →
    WholeOrCut (IsValue n) (IsCut n) r (readDoc pool fuel r).2
  | 0, _, _, hc => by cases hc
  | fuel + 1, r, hle, hc => by
    rcases Nat.eq_or_lt_of_le hle with hend | hlt
    · rw [readDoc_of_end pool (Nat.succ_pos fuel) hend.ge] at hc
      cases hc
    have hread := readType_of_lt hlt
    cases hof : BinaryType.ofNat? r.data[r.p].toNat with
    | none =>
      simp only [readDoc, hread, hof] at hc
      cases hc
    | some type =>
      have htag : r.data.drop r.p = UInt8.ofNat type.value :: r.data.drop (r.p + 1) := by
        rw [List.drop_eq_getElem_cons hlt, value_of_ofNat? hof, UInt8.ofNat_toNat]
      simp only [readDoc, hread, hof] at hc ⊢
      obtain ⟨hstands, hstops⟩ := (complete_build hpool).mp hc
      exact node_wholeOrCut htag rfl hstands fun hle' =>
        readItems_wholeOrCut (readDoc_complete hpool fuel) _ _ hle' hstops

/-! ### Files -/

/-- A file that is read up to its body has at least a head. -/
theorem exists_encodeHead {data : Bytes} {strs : List Bytes} {d : Doc} {r : BinaryReader}
    (h : readDocument data = .body strs d r) (h8 : 8 ≤ data.length) :
    Doc.PoolStrings strs ∧ ∃ body, data = Doc.encodeHead strs ++ body := by
  obtain ⟨hmagic, hversion, _, hpool, _⟩ := readDocument_body h
  obtain ⟨hn, hstrs, ha⟩ := ahead_of_readPool hpool
  -- every field of the header is inside of the input
  have hfield : ∀ w p v, p + w ≤ 8 → leNat (readNumber w ⟨data, p⟩).1 = v →
      Ahead ⟨data, p⟩ (leBytesInt w v) := by
    intro w p v hp hv
    have hnum := ahead_readNumber (r := ⟨data, p⟩) (hp.trans h8)
    have hbytes := leBytesInt_leNat (readNumber w ⟨data, p⟩).1
    rw [length_readNumber, hv] at hbytes
    rwa [← hbytes] at hnum
  have hhead : Ahead ⟨data, 0⟩ (Doc.encodeHead strs) := by
    refine (hfield 2 0 magicNumber (by decide) hmagic).append ?_
    refine (hfield 2 2 luabtVersion (by decide) hversion).append ?_
    exact (hfield stringPoolLengthSize 4 strs.length (by decide) hn.symm).append ha
  refine ⟨⟨?_, hstrs⟩, ?_⟩
  · have hlt := leNat_lt (readNumber stringPoolLengthSize ⟨data, 4⟩).1
    rw [length_readNumber, ← hn] at hlt
    exact hlt
  · obtain ⟨body, hbody⟩ := hhead
    exact ⟨body, hbody.symm⟩

/-- Without a whole header the pool is empty and no value follows. -/
theorem body_of_short {data : Bytes} {strs : List Bytes} {d : Doc} {r : BinaryReader}
    (h : readDocument data = .body strs d r) (hlt : data.length < 8) :
    strs = [] ∧ d = .stop .malformed := by
  obtain ⟨_, _, r₀, hpool, _, hd⟩ := readDocument_body h
  have hcount : leNat (readNumber stringPoolLengthSize ⟨data, 4⟩).1 = 0 := by
    by_contra hz
    exact absurd (add_le_of_readNumber hz) (Nat.not_le_of_lt hlt)
  rw [hcount] at hpool
  obtain ⟨rfl, hr₀⟩ := Prod.mk.inj hpool
  obtain ⟨_, rfl⟩ := Prod.mk.inj hr₀
  refine ⟨rfl, (congrArg Prod.fst hd).trans ?_⟩
  exact readDoc_of_end _ (Nat.succ_pos _) hlt.le

theorem eight_le_of_complete {data : Bytes} {strs : List Bytes} {d : Doc} {r : BinaryReader}
    (h : readDocument data = .body strs d r) (hc : d.Complete) : 8 ≤ data.length := by
  by_contra hlt
  rw [(body_of_short h (Nat.lt_of_not_le hlt)).2] at hc
  cases hc

theorem left_encodeHead (strs : List Bytes) (body : Bytes) :
    Left ⟨Doc.encodeHead strs ++ body, (Doc.encodeHead strs).length⟩ body := by
  refine ⟨List.drop_left, ?_⟩
  simp only [List.length_append]
  omega

/-- A whole file is read up to the last byte of its body. -/
theorem readDocument_of_isValue {strs : List Bytes} {body : Bytes} (hs : Doc.PoolStrings strs)
    (hbody : IsValue strs.length body) (rest : Bytes) :
    ∃ d, d.Complete ∧ readDocument (Doc.encodeHead strs ++ (body ++ rest)) =
      .body strs d ⟨Doc.encodeHead strs ++ (body ++ rest),
        (Doc.encodeHead strs).length + body.length⟩ := by
  obtain ⟨hc, hr⟩ := readDoc_of_isValue (indexes_poolDoc (fillPool 0 .empty strs) strs.length) hbody
    ((Doc.encodeHead strs ++ (body ++ rest)).length + 1) (by simp only [List.length_append]; omega)
    (left_encodeHead strs (body ++ rest)).ahead.left
  refine ⟨_, hc, ?_⟩
  rw [readDocument_encodeHead hs, hr]
  rfl

/-- A cut file is read past its end. -/
theorem CutDocument.readDocument {data : Bytes} (h : CutDocument data) :
    ∃ strs d r, readDocument data = .body strs d r ∧ d.Complete ∧ data.length < r.p := by
  obtain ⟨strs, body, hs, hbody, rfl⟩ := h
  obtain ⟨hc, hlt⟩ := readDoc_of_isCut (indexes_poolDoc (fillPool 0 .empty strs) strs.length) hbody
    ((Doc.encodeHead strs ++ body).length + 1) (by simp only [List.length_append]; omega)
    (left_encodeHead strs body)
  exact ⟨strs, _, _, readDocument_encodeHead hs body, hc, hlt⟩

/-- Only whole and cut files have a complete body. -/
theorem whole_or_cut {data : Bytes} {strs : List Bytes} {d : Doc} {r : BinaryReader}
    (h : readDocument data = .body strs d r) (hc : d.Complete) :
    WholeDocument data ∧ r.p ≤ data.length ∨ CutDocument data := by
  obtain ⟨hs, body, rfl⟩ := exists_encodeHead h (eight_le_of_complete h hc)
  rw [readDocument_encodeHead hs] at h
  obtain ⟨_, rfl, rfl⟩ := Reading.body.inj h
  have hl := left_encodeHead strs body
  rcases readDoc_complete (indexes_poolDoc _ strs.length) _ _ hl.2 hc with
    ⟨b, hb, ⟨rest, hrest⟩, hin, hr⟩ | ⟨hcut, _⟩
  · left
    rw [hl.1] at hrest
    rw [hr]
    exact ⟨⟨strs, b, rest, hs, hb, by rw [hrest]⟩, hin⟩
  · right
    rw [hl.1] at hcut
    exact ⟨strs, body, hs, hcut, rfl⟩

end LuaBinaryTable
