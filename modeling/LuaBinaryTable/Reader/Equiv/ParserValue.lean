import LuaBinaryTable.Document.Equiv.Materialise
import LuaBinaryTable.Document.Read
import LuaBinaryTable.Reader.ParserValue

/-!
# `parserValue` follows the document

`follows_parserValue`: from a state with the pool in place, `parserValue` pushes the value of the
document that `readDoc` reads, fails, raises an error or runs out of fuel as `Doc.outcome` says, and
has then used the slots that `Doc.slots` counts.
-/

namespace LuaBinaryTable

namespace Reader

open LuaState

variable {sizes : TableSizes}

/-- A run of the decoder from a state with stack `S`, heap `h`, library `T` and peak `p` that
follows the document `d` and leaves the cursor at `r`. -/
def Follows (sizes : TableSizes) (d : Doc) (S : List LuaValue) (h : List LuaTable) (T : Thread)
    (p : Nat) (r : BinaryReader) : Run ParseState (Bool × ParseState) → Prop
  | .returns (true, s) => d.outcome sizes = .complete ∧
      s.L = ⟨(d.materialise h).1 :: S, (d.materialise h).2, T, max p (S.length + d.slots sizes)⟩ ∧
      s.reader = r
  | .returns (false, s) => d.outcome sizes = .fails ∧ S <:+ s.L.stack ∧
      s.L.peak = max p (S.length + d.slots sizes)
  | .raises s => d.outcome sizes = .raises ∧ s.L.peak = max p (S.length + d.slots sizes)
  | .diverges => d.outcome sizes = .diverges

/-- A run of a loop over the values `ds`, which changes the heap of the table on the top to `h'`. -/
def FollowsLoop (outcome : Outcome) (slots : Nat) (S : List LuaValue) (ref : Nat)
    (h' : List LuaTable) (T : Thread) (p : Nat) (r : BinaryReader) :
    Run ParseState (Bool × ParseState) → Prop
  | .returns (true, s) => outcome = .complete ∧
      s.L = ⟨.table ref :: S, h', T, max p (S.length + 1 + slots)⟩ ∧ s.reader = r
  | .returns (false, s) => outcome = .fails ∧ S <:+ s.L.stack ∧
      s.L.peak = max p (S.length + 1 + slots)
  | .raises s => outcome = .raises ∧ s.L.peak = max p (S.length + 1 + slots)
  | .diverges => outcome = .diverges

/-- The pool table `t` lies at `pref` in the heap and on the stack at the handle of `st`; its values
are strings. -/
structure PoolAt (st : StringTable) (pref : Nat) (t : LuaTable) (S : List LuaValue)
    (h : List LuaTable) : Prop where
  pos : 0 < st.handle
  le : st.handle ≤ S.length
  onStack : slot S st.handle = .table pref
  inHeap : h[pref]? = some t
  strings : ∀ k, t.get k = .nil ∨ ∃ str, t.get k = .string str

namespace PoolAt

variable {st : StringTable} {pref : Nat} {t : LuaTable} {S : List LuaValue} {h : List LuaTable}

theorem lt_length (hp : PoolAt st pref t S h) : pref < h.length :=
  (List.getElem?_eq_some_iff.mp hp.inHeap).1

theorem push (hp : PoolAt st pref t S h) (v : LuaValue) : PoolAt st pref t (v :: S) h :=
  ⟨hp.pos, Nat.le_succ_of_le hp.le, by rw [slot_of_le hp.le]; exact hp.onStack, hp.inHeap,
    hp.strings⟩

theorem grows (hp : PoolAt st pref t S h) {h' : List LuaTable} (hg : Grows h h') :
    PoolAt st pref t S h' :=
  ⟨hp.pos, hp.le, hp.onStack, (hg.old pref hp.lt_length).trans hp.inHeap, hp.strings⟩

theorem modify (hp : PoolAt st pref t S h) {ref : Nat} (hne : pref ≠ ref)
    (f : LuaTable → LuaTable) : PoolAt st pref t S (h.modify ref f) :=
  ⟨hp.pos, hp.le, hp.onStack,
    ((GrowsExcept.modify ref h f).old pref hp.lt_length hne).trans hp.inHeap, hp.strings⟩

end PoolAt

variable {st : StringTable} {pref : Nat} {t : LuaTable}

/-- A parser that follows the documents that `rd` reads, wherever the pool is in place. -/
def FollowsReading (sizes : TableSizes) (st : StringTable) (pref : Nat) (t : LuaTable)
    (rd : BinaryReader → Doc × BinaryReader) (parser : ValueParser) : Prop :=
  ∀ S h T p r tr, PoolAt st pref t S h → S.length ≤ p →
    Follows sizes (rd r).1 S h T p (rd r).2 (parser ⟨⟨S, h, T, p⟩, r, tr⟩)

/-! ### Scalars -/

theorem follows_push {d : Doc} {S : List LuaValue} {h : List LuaTable} {T : Thread} {p : Nat}
    {r : BinaryReader} {tr : List ParseEvent} (ho : d.outcome sizes = .complete)
    (hs : d.slots sizes = 1) (hh : (d.materialise h).2 = h) :
    Follows sizes d S h T p r
      (.returns (true, ⟨LuaState.push (d.materialise h).1 ⟨S, h, T, p⟩, r, tr⟩)) := by
  refine ⟨ho, ?_, rfl⟩
  rw [hs, hh, push_mk]

/-- `getString` pushes the pool's value of the index. -/
theorem follows_getString {S : List LuaValue} {h : List LuaTable} (T : Thread) {p : Nat}
    (r : BinaryReader) (tr : List ParseEvent) (hp : PoolAt st pref t S h) (hle : S.length ≤ p)
    (i : Nat) :
    Follows sizes (poolDoc t st.size i) S h T p r
      (.returns (st.getString ⟨⟨S, h, T, p⟩, r, tr⟩ i)) := by
  unfold StringTable.getString poolDoc
  split_ifs with hi
  · have hget : rawField h (slot S st.handle) (integer (toInt32 i)) =
        t.get (integer (toInt32 i)) := by
      rw [hp.onStack, rawField, hp.inHeap]
      rfl
    rw [rawgeti_mk _ _ _ _ hp.pos, hget]
    rcases hp.strings (integer (toInt32 i)) with hn | ⟨str, hs⟩
    · rw [hn]
      exact ⟨rfl, rfl, rfl⟩
    · rw [hs]
      exact ⟨rfl, rfl, rfl⟩
  · exact ⟨rfl, List.suffix_refl S, by simp [Doc.slots, ParseState.log, hle]⟩

/-! ### Loops -/

/-- The documents that follow start with the next one, and go on where it does not break off. -/
theorem readItems_succ (rd : BinaryReader → Doc × BinaryReader) (n : Nat) (r : BinaryReader) :
    ∃ ds, (readItems rd (n + 1) r).1 = (rd r).1 :: ds ∧
      ((rd r).1.Complete → ds = (readItems rd n (rd r).2).1 ∧
        (readItems rd (n + 1) r).2 = (readItems rd n (rd r).2).2) := by
  by_cases hc : (rd r).1.Complete
  · exact ⟨(readItems rd n (rd r).2).1, by simp only [readItems, hc, if_true],
      fun _ => ⟨rfl, by simp only [readItems, hc, if_true]⟩⟩
  · exact ⟨[], by simp only [readItems, hc, if_false], fun h => absurd h hc⟩

/-- Where the first part of a loop's round ends the loop, it ends it as its document says. -/
theorem FollowsLoop.of_follows {d : Doc} {S S' : List LuaValue} {ref : Nat} {h h' : List LuaTable}
    {T : Thread} {p : Nat} {r r' : BinaryReader} {o : Outcome} {m : Nat}
    {x : Run ParseState (Bool × ParseState)}
    {f : Bool × ParseState → Run ParseState (Bool × ParseState)}
    (hx : Follows sizes d S' h T p r x) (hS : S <:+ S')
    (hfail : ∀ s, f (false, s) = .returns (false, s))
    (ho : d.outcome sizes ≠ .complete →
      o = d.outcome sizes ∧ S.length + 1 + m = S'.length + d.slots sizes)
    (hok : ∀ s, Follows sizes d S' h T p r (.returns (true, s)) →
      FollowsLoop o m S ref h' T p r' (f (true, s))) :
    FollowsLoop o m S ref h' T p r' (x >>= f) := by
  match x, hx with
  | .returns (true, s), hx => exact hok s hx
  | .returns (false, s), ⟨hd, hs, hpk⟩ =>
    obtain ⟨rfl, hm⟩ := ho (by rw [hd]; decide)
    rw [Run.returns_bind, hfail]
    exact ⟨hd, hS.trans hs, by rw [hpk, hm]⟩
  | .raises s, ⟨hd, hpk⟩ =>
    obtain ⟨rfl, hm⟩ := ho (by rw [hd]; decide)
    exact ⟨hd, by rw [hpk, hm]⟩
  | .diverges, hd =>
    obtain ⟨rfl, _⟩ := ho (by rw [show d.outcome sizes = _ from hd]; decide)
    exact hd

/-- A loop that starts at a peak reached before. -/
theorem FollowsLoop.of_peak {o : Outcome} {k m : Nat} {S : List LuaValue} {ref : Nat}
    {h' : List LuaTable} {T : Thread} {p : Nat} {r : BinaryReader}
    {x : Run ParseState (Bool × ParseState)}
    (hx : FollowsLoop o m S ref h' T (max p (S.length + 1 + k)) r x) :
    FollowsLoop o (max k m) S ref h' T p r x := by
  have hmax : max (max p (S.length + 1 + k)) (S.length + 1 + m) =
      max p (S.length + 1 + max k m) := by omega
  match x, hx with
  | .returns (true, s), ⟨ho, hL, hr⟩ => exact ⟨ho, by rw [hL, hmax], hr⟩
  | .returns (false, s), ⟨ho, hs, hpk⟩ => exact ⟨ho, hs, by rw [hpk, hmax]⟩
  | .raises s, ⟨ho, hpk⟩ => exact ⟨ho, by rw [hpk, hmax]⟩
  | .diverges, ho => exact ho

variable {rd : BinaryReader → Doc × BinaryReader} {parser : ValueParser}

/-- The loop over the elements of an array. -/
theorem follows_parseArrayLoop (hf : FollowsReading sizes st pref t rd parser)
    (S : List LuaValue) (ref : Nat) (T : Thread) (hne : pref ≠ ref) :
    ∀ (n i : Nat) (h : List LuaTable) (p : Nat) (r : BinaryReader) (tr : List ParseEvent),
      PoolAt st pref t S h → S.length + 1 ≤ p →
      FollowsLoop (Doc.outcomeItems sizes (readItems rd n r).1)
        (Doc.slotsItems sizes (readItems rd n r).1) S ref
        (Doc.fillArray ref (readItems rd n r).1 i h) T p (readItems rd n r).2
        (parseArrayLoop parser n i ⟨⟨.table ref :: S, h, T, p⟩, r, tr⟩)
  | 0, i, h, p, r, tr, _, hle => by
    refine ⟨rfl, ?_, rfl⟩
    simp only [readItems, Doc.fillArray, Doc.slotsItems]
    rw [Nat.max_eq_left (by omega)]
  | n + 1, i, h, p, r, tr, hp, hle => by
    obtain ⟨ds, hds, hrest⟩ := readItems_succ rd n r
    rw [parseArrayLoop, hds]
    refine FollowsLoop.of_follows (hf _ h T p r tr (hp.push _) hle) (List.suffix_cons _ _)
      (fun _ => rfl) ?_ ?_
    -- an element that fails is the last one read, and what it left stays above the table
    · intro hd
      rw [Doc.outcomeItems, Doc.slotsItems, if_neg hd, Nat.max_zero]
      exact ⟨by cases ho : (rd r).1.outcome sizes <;> simp [Outcome.andThen, ho] at hd ⊢, rfl⟩
    -- a complete one is stored, and the loop goes on behind it
    · rintro ⟨L, r', tr'⟩ ⟨hd, rfl, rfl⟩
      obtain ⟨rfl, hr⟩ := hrest (Doc.complete_of_outcome sizes _ hd)
      simp only [if_true, rawseti_mk]
      rw [hr, Doc.outcomeItems, hd, Outcome.complete_andThen, Doc.slotsItems, if_pos hd]
      exact (follows_parseArrayLoop hf S ref T hne n (i + 1) _ _ _ _
        ((hp.grows (Doc.grows_materialise _ h)).modify hne _) (by omega)).of_peak

/-- Two values more. -/
theorem readItems_two_mul_succ (rd : BinaryReader → Doc × BinaryReader) (n : Nat)
    (r : BinaryReader) :
    ∃ ds, (readItems rd (2 * (n + 1)) r).1 = (rd r).1 :: ds ∧
      ((rd r).1.Complete → ∃ ds', ds = (rd (rd r).2).1 :: ds' ∧
        ((rd (rd r).2).1.Complete → ds' = (readItems rd (2 * n) (rd (rd r).2).2).1 ∧
          (readItems rd (2 * (n + 1)) r).2 = (readItems rd (2 * n) (rd (rd r).2).2).2)) := by
  obtain ⟨ds, h1, h2⟩ := readItems_succ rd (2 * n + 1) r
  refine ⟨ds, h1, fun hc => ?_⟩
  obtain ⟨rfl, hr⟩ := h2 hc
  obtain ⟨ds', h3, h4⟩ := readItems_succ rd (2 * n) (rd r).2
  refine ⟨ds', h3, fun hc' => ?_⟩
  obtain ⟨rfl, hr'⟩ := h4 hc'
  exact ⟨rfl, hr.trans hr'⟩

/-- A key that is not completed ends the entries. -/
theorem outcomeEntries_of_key {k : Doc} (ds : List Doc) (hk : k.outcome sizes ≠ .complete) :
    Doc.outcomeEntries sizes (k :: ds) = k.outcome sizes ∧
      Doc.slotsEntries sizes (k :: ds) = k.slots sizes := by
  cases ds with
  | nil => exact ⟨rfl, rfl⟩
  | cons v ds =>
    rw [Doc.outcomeEntries, Doc.slotsEntries, if_neg hk, Nat.max_zero]
    exact ⟨by cases ho : k.outcome sizes <;> simp [Outcome.andThen, ho] at hk ⊢, rfl⟩

/-- The loop over the entries of a table. -/
theorem follows_parseTableLoop (hf : FollowsReading sizes st pref t rd parser)
    (S : List LuaValue) (ref : Nat) (T : Thread) (hne : pref ≠ ref) :
    ∀ (n : Nat) (h : List LuaTable) (p : Nat) (r : BinaryReader) (tr : List ParseEvent),
      PoolAt st pref t S h → S.length + 1 ≤ p →
      FollowsLoop (Doc.outcomeEntries sizes (readItems rd (2 * n) r).1)
        (Doc.slotsEntries sizes (readItems rd (2 * n) r).1) S ref
        (Doc.fillTable ref (readItems rd (2 * n) r).1 h) T p (readItems rd (2 * n) r).2
        (parseTableLoop parser n ⟨⟨.table ref :: S, h, T, p⟩, r, tr⟩)
  | 0, h, p, r, tr, _, hle => by
    refine ⟨rfl, ?_, rfl⟩
    simp only [readItems, Doc.fillTable, Doc.slotsEntries]
    rw [Nat.max_eq_left (by omega)]
  | n + 1, h, p, r, tr, hp, hle => by
    -- a round reads a key and then its value, above the table
    obtain ⟨ds, hds, hkey⟩ := readItems_two_mul_succ rd n r
    rw [parseTableLoop, hds]
    refine FollowsLoop.of_follows (hf _ h T p r tr (hp.push _) hle) (List.suffix_cons _ _)
      (fun _ => rfl) ?_ ?_
    · intro hk
      obtain ⟨h1, h2⟩ := outcomeEntries_of_key ds hk
      exact ⟨h1, by rw [h2]; rfl⟩
    · rintro ⟨L, r', tr'⟩ ⟨hk, rfl, rfl⟩
      obtain ⟨ds', rfl, hval⟩ := hkey (Doc.complete_of_outcome sizes _ hk)
      have hp' := hp.grows (Doc.grows_materialise (rd r).1 h)
      have hslots := Doc.one_le_slots hk
      simp only [if_true, Doc.slotsEntries, hk]
      refine FollowsLoop.of_peak (FollowsLoop.of_follows
        (hf _ _ T _ (rd r).2 tr' ((hp'.push _).push _) (by simp only [List.length_cons]; omega))
        ⟨[_, _], rfl⟩ (fun _ => rfl) ?_ ?_)
      · intro hv
        simp only [Doc.outcomeEntries, hk, hv, Outcome.complete_andThen, List.length_cons,
          false_and, if_false]
        exact ⟨by cases ho : (rd (rd r).2).1.outcome sizes <;> simp [Outcome.andThen, ho] at hv ⊢,
          by omega⟩
      · rintro ⟨L, r'', tr''⟩ ⟨hv, rfl, rfl⟩
        obtain ⟨rfl, hr⟩ := hval (Doc.complete_of_outcome sizes _ hv)
        have hp'' := hp'.grows (Doc.grows_materialise (rd (rd r).2).1 _)
        simp only [if_true, ParseState.callLua, rawset_mk, Doc.isKey_materialise,
          Doc.outcomeEntries, hk, hv, Outcome.complete_andThen, true_and]
        rw [hr]
        -- `lua_rawset` stores the entry, or raises on a key that no table can have
        by_cases hkey' : (rd r).1.isKey = true
        · simp only [hkey', if_true, Run.returns_bind, Doc.fillTable]
          have hpeak : max (max p (S.length + 1 + (rd r).1.slots sizes))
              (S.length + 1 + 1 + (rd (rd r).2).1.slots sizes) =
              max (max p (S.length + 1 + (rd r).1.slots sizes))
                (S.length + 1 + (1 + (rd (rd r).2).1.slots sizes)) := by
            omega
          rw [List.length_cons, List.length_cons, hpeak]
          exact (follows_parseTableLoop hf S ref T hne n _ _ _ _ (hp''.modify hne _)
            (by omega)).of_peak
        · simp only [hkey', Bool.false_eq_true, if_false, Nat.max_zero]
          refine ⟨rfl, ?_⟩
          simp only [List.length_cons]
          omega

/-- A loop that fills a new table is a run for the table's document. -/
theorem Follows.of_loop {d : Doc} {S : List LuaValue} {h h' : List LuaTable} {T : Thread}
    {p : Nat} {r : BinaryReader} {o : Outcome} {m : Nat}
    {x : Run ParseState (Bool × ParseState)} (ho : d.outcome sizes = o)
    (hs : d.slots sizes = 1 + m) (hm : d.materialise h = (.table h.length, h'))
    (hx : FollowsLoop o m S h.length h' T (max p (S.length + 1)) r x) :
    Follows sizes d S h T p r x := by
  subst ho
  have hmax : max (max p (S.length + 1)) (S.length + 1 + m) = max p (S.length + d.slots sizes) := by
    omega
  match x, hx with
  | .returns (true, s), ⟨ho, hL, hr⟩ => exact ⟨ho, by rw [hL, hm, hmax], hr⟩
  | .returns (false, s), ⟨ho, hst, hpk⟩ => exact ⟨ho, hst, by rw [hpk, hmax]⟩
  | .raises s, ⟨ho, hpk⟩ => exact ⟨ho, by rw [hpk, hmax]⟩
  | .diverges, ho => exact ho

section

variable (hf : FollowsReading sizes st pref t rd parser) {S : List LuaValue} {h : List LuaTable}
  (T : Thread) {p : Nat} (r : BinaryReader) (tr : List ParseEvent) (hp : PoolAt st pref t S h)
  (hle : S.length ≤ p)

include hf hp hle

theorem follows_parseArray (w : Nat) :
    Follows sizes
      (.array (leNat (r.readNumber w).1)
        (readItems rd (leNat (r.readNumber w).1) (r.readNumber w).2).1) S h T p
      (readItems rd (leNat (r.readNumber w).1) (r.readNumber w).2).2
      (parseArray sizes w parser ⟨⟨S, h, T, p⟩, r, tr⟩) := by
  simp only [parseArray, ParseState.readNumber, ParseState.log, ParseState.callLua, createtable]
  by_cases hs : sizes (toInt32 (leNat (r.readNumber w).1)) 0 = true
  · simp only [hs, if_true, newtable_mk, Run.returns_bind]
    have hne := hp.lt_length
    refine Follows.of_loop (by rw [Doc.outcome, if_pos hs]) (by rw [Doc.slots, if_pos hs]) rfl ?_
    exact follows_parseArrayLoop hf S _ T (by omega) _ 0 _ _ _ _
      (hp.grows (Grows.append h _)) (by omega)
  · simp only [hs, Bool.false_eq_true, if_false, Run.raises_bind]
    refine ⟨by rw [Doc.outcome, if_neg hs], ?_⟩
    simp only [Doc.slots, hs, Bool.false_eq_true, if_false]
    omega

theorem follows_parseTable (w : Nat) :
    Follows sizes
      (.table (leNat (r.readNumber w).1)
        (readItems rd (2 * leNat (r.readNumber w).1) (r.readNumber w).2).1) S h T p
      (readItems rd (2 * leNat (r.readNumber w).1) (r.readNumber w).2).2
      (parseTable sizes w parser ⟨⟨S, h, T, p⟩, r, tr⟩) := by
  simp only [parseTable, ParseState.readNumber, ParseState.log, ParseState.callLua, createtable]
  by_cases hs : sizes 0 (toInt32 (leNat (r.readNumber w).1)) = true
  · simp only [hs, if_true, newtable_mk, Run.returns_bind]
    have hne := hp.lt_length
    refine Follows.of_loop (by rw [Doc.outcome, if_pos hs]) (by rw [Doc.slots, if_pos hs]) rfl ?_
    exact follows_parseTableLoop hf S _ T (by omega) _ _ _ _ _
      (hp.grows (Grows.append h _)) (by omega)
  · simp only [hs, Bool.false_eq_true, if_false, Run.raises_bind]
    refine ⟨by rw [Doc.outcome, if_neg hs], ?_⟩
    simp only [Doc.slots, hs, Bool.false_eq_true, if_false]
    omega

/-- Each entry of the table `parsers` follows the document that its tag starts. -/
theorem follows_parsers (type : BinaryType) :
    Follows sizes
      (type.build (poolDoc t st.size) (r.readNumber type.width).1
        (readItems rd (type.items (r.readNumber type.width).1) (r.readNumber type.width).2).1)
      S h T p
      (readItems rd (type.items (r.readNumber type.width).1) (r.readNumber type.width).2).2
      (parsers sizes st parser type ⟨⟨S, h, T, p⟩, r, tr⟩) := by
  cases type with
  | tEof => exact ⟨rfl, List.suffix_refl S, by simp [BinaryType.build, Doc.slots, hle]⟩
  | tNil => exact follows_push (d := .nil) rfl rfl rfl
  | tTrue => exact follows_push (d := .boolean true) rfl rfl rfl
  | tFalse => exact follows_push (d := .boolean false) rfl rfl rfl
  | tZero => exact follows_push (d := .integer 0) rfl rfl rfl
  | tOne => exact follows_push (d := .integer 1) rfl rfl rfl
  | tInt8 | tInt16 | tInt32 | tInt64 => exact follows_push (d := .integer _) rfl rfl rfl
  | tFloat | tDouble => exact follows_push (d := .double _) rfl rfl rfl
  | tString0 => exact follows_push (d := .string []) rfl rfl rfl
  | tArray0 | tTable0 => exact ⟨rfl, rfl, rfl⟩
  | tString8 | tString16 | tString32 => exact follows_getString T _ _ hp hle _
  | tArray8 | tArray16 | tArray32 => exact follows_parseArray hf T r tr hp hle _
  | tTable8 | tTable16 | tTable32 => exact follows_parseTable hf T r tr hp hle _

end

/-- From a state with the pool in place, `parserValue` follows the document at the cursor. -/
theorem follows_parserValue (sizes : TableSizes) (st : StringTable) (pref : Nat) (t : LuaTable) :
    ∀ fuel, FollowsReading sizes st pref t (readDoc (poolDoc t st.size) fuel)
      (parserValue sizes st fuel)
  | 0 => fun _ _ _ _ _ _ _ _ => rfl
  | fuel + 1 => by
    intro S h T p r tr hp hle
    simp only [parserValue, readDoc, ParseState.log]
    cases BinaryType.ofNat? r.readType.1 with
    | none => exact ⟨rfl, List.suffix_refl S, by simp [Doc.slots, hle]⟩
    | some type =>
      exact follows_parsers (follows_parserValue sizes st pref t fuel) T _ _ hp hle type

end Reader

end LuaBinaryTable
