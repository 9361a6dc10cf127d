import LuaBinaryTable.Document.Declared
import LuaBinaryTable.Reader.Equiv.ParserValue

/-!
# The decoder records what the document declares

`recorded_parserValue`: from a state with the pool in place, the counts and the string indices
that a run of `parserValue` records are those that `declaredDoc` lists, whether the run succeeds,
fails or raises an error.
-/

namespace LuaBinaryTable

namespace Reader

open LuaState

/-- The payload that an event is about. -/
def payload? : ParseEvent → Option Declared
  | .createtable count _ p => some (.count count p)
  | .string i _ => some (.index i)
  | _ => none

/-- A run that has recorded `ds` behind the trace `tr`, the last first. -/
def Recorded (ds : List Declared) (tr : List ParseEvent) : Run ParseState (Bool × ParseState) → Prop
  | .returns (_, s) => s.trace.filterMap payload? = ds.reverse ++ tr.filterMap payload?
  | .raises s => s.trace.filterMap payload? = ds.reverse ++ tr.filterMap payload?
  | .diverges => True

variable {sizes : TableSizes} {st : StringTable} {pref : Nat} {t : LuaTable}

namespace Recorded

variable {ds rest : List Declared} {tr tr' : List ParseEvent}
  {x : Run ParseState (Bool × ParseState)}

/-- What a run records behind an event that was recorded first. -/
theorem of_log {c : Declared} {e : ParseEvent} (he : payload? e = some c)
    (hx : Recorded ds (e :: tr) x) : Recorded (c :: ds) tr x := by
  have hcons : ds.reverse ++ (e :: tr).filterMap payload? =
      (c :: ds).reverse ++ tr.filterMap payload? := by
    rw [List.filterMap_cons_some he, List.reverse_cons, List.append_assoc, List.singleton_append]
  match x, hx with
  | .returns (_, s), hx => exact hx.trans hcons
  | .raises s, hx => exact hx.trans hcons
  | .diverges, _ => trivial

/-- A run that follows the document `d` goes on where `d` is complete. -/
theorem bind {d : Doc} {S : List LuaValue} {h : List LuaTable} {T : Thread} {p : Nat}
    {r : BinaryReader} {f : Bool × ParseState → Run ParseState (Bool × ParseState)}
    (hfol : Follows sizes d S h T p r x) (hx : Recorded ds tr x)
    (hfail : ∀ s, f (false, s) = .returns (false, s))
    (hok : ∀ s, x = .returns (true, s) → d.outcome sizes = .complete →
      Recorded rest s.trace (f (true, s))) :
    Recorded (ds ++ if d.outcome sizes = .complete then rest else []) tr (x >>= f) := by
  match x, hfol, hx with
  | .returns (true, s), ⟨ho, _⟩, hx =>
    have hgo := hok s rfl ho
    rw [if_pos ho, Run.returns_bind]
    match f (true, s), hgo with
    | .returns (_, s'), hgo | .raises s', hgo =>
      refine Eq.trans hgo ?_
      rw [show s.trace.filterMap payload? = _ from hx, List.reverse_append, List.append_assoc]
    | .diverges, _ => trivial
  | .returns (false, s), ⟨ho, _⟩, hx =>
    rw [Run.returns_bind, hfail, ho, if_neg (by decide), List.append_nil]
    exact hx
  | .raises s, ⟨ho, _⟩, hx =>
    rw [ho, if_neg (by decide), List.append_nil]
    exact hx
  | .diverges, _, _ => trivial

end Recorded

/-- A parser that records what `dec` lists, wherever the pool is in place. -/
def RecordsReading (st : StringTable) (pref : Nat) (t : LuaTable)
    (dec : BinaryReader → List Declared) (parser : ValueParser) : Prop :=
  ∀ S h T p r tr, PoolAt st pref t S h → S.length ≤ p →
    Recorded (dec r) tr (parser ⟨⟨S, h, T, p⟩, r, tr⟩)

/-! ### Loops -/

section

variable {rd : BinaryReader → Doc × BinaryReader} {dec : BinaryReader → List Declared}
  {parser : ValueParser} (hf : FollowsReading sizes st pref t rd parser)
  (hr : RecordsReading st pref t dec parser)

include hf hr

/-- The loop over an array asks for the tables that its elements declare, up to the first that
does not end well. -/
theorem recorded_parseArrayLoop (S : List LuaValue) (ref : Nat) (T : Thread) (hne : pref ≠ ref) :
    ∀ (n i : Nat) (h : List LuaTable) (p : Nat) (r : BinaryReader) (tr : List ParseEvent),
      PoolAt st pref t S h → S.length + 1 ≤ p →
      Recorded (declaredItems sizes rd dec n r) tr
        (parseArrayLoop parser n i ⟨⟨.table ref :: S, h, T, p⟩, r, tr⟩)
  | 0, _, _, _, _, _, _, _ => rfl
  | n + 1, i, h, p, r, tr, hp, hle => by
    have hfol := hf (.table ref :: S) h T p r tr (hp.push _) hle
    rw [parseArrayLoop, declaredItems]
    refine Recorded.bind hfol (hr _ h T p r tr (hp.push _) hle) (fun _ => rfl) ?_
    rintro ⟨L, r', tr'⟩ hs _
    rw [hs] at hfol
    obtain ⟨_, rfl, rfl⟩ := hfol
    simp only [if_true, rawseti_mk]
    exact recorded_parseArrayLoop S ref T hne n (i + 1) _ _ _ tr'
      ((hp.grows (Doc.grows_materialise _ h)).modify hne _) (by omega)

/-- The same for keys and values. -/
theorem recorded_parseTableLoop (S : List LuaValue) (ref : Nat) (T : Thread) (hne : pref ≠ ref) :
    ∀ (n : Nat) (h : List LuaTable) (p : Nat) (r : BinaryReader) (tr : List ParseEvent),
      PoolAt st pref t S h → S.length + 1 ≤ p →
      Recorded (declaredEntries sizes rd dec n r) tr
        (parseTableLoop parser n ⟨⟨.table ref :: S, h, T, p⟩, r, tr⟩)
  | 0, _, _, _, _, _, _ => rfl
  | n + 1, h, p, r, tr, hp, hle => by
    have hfol := hf (.table ref :: S) h T p r tr (hp.push _) hle
    rw [parseTableLoop, declaredEntries]
    refine Recorded.bind hfol (hr _ h T p r tr (hp.push _) hle) (fun _ => rfl) ?_
    rintro ⟨L, r', tr'⟩ hs hk
    rw [hs] at hfol
    obtain ⟨_, rfl, rfl⟩ := hfol
    have hp' := hp.grows (Doc.grows_materialise (rd r).1 h)
    have hslots := Doc.one_le_slots hk
    have hle' : (((rd r).1.materialise h).1 :: LuaValue.table ref :: S).length ≤
        max p ((LuaValue.table ref :: S).length + (rd r).1.slots sizes) := by
      simp only [List.length_cons]
      omega
    have hfol' := hf _ _ T _ (rd r).2 tr' ((hp'.push _).push _) hle'
    simp only [if_true]
    refine Recorded.bind hfol' (hr _ _ T _ (rd r).2 tr' ((hp'.push _).push _) hle') (fun _ => rfl)
      ?_
    rintro ⟨L, r'', tr''⟩ hs' _
    rw [hs'] at hfol'
    obtain ⟨_, rfl, rfl⟩ := hfol'
    -- `lua_rawset` ends the entries where it raises
    simp only [if_true, ParseState.callLua, rawset_mk, Doc.isKey_materialise]
    split_ifs with hkey
    · exact recorded_parseTableLoop S ref T hne n _ _ _ tr''
        ((hp'.grows (Doc.grows_materialise _ _)).modify hne _) (by omega)
    · exact rfl

end

/-! ### Values -/

section

variable {rd : BinaryReader → Doc × BinaryReader} {dec : BinaryReader → List Declared}
  {parser : ValueParser} (hf : FollowsReading sizes st pref t rd parser)
  (hr : RecordsReading st pref t dec parser) {S : List LuaValue} {h : List LuaTable} (T : Thread)
  {p : Nat} (r : BinaryReader) (tr : List ParseEvent) (hp : PoolAt st pref t S h)

theorem recorded_getString (i : Nat) (s : ParseState) :
    Recorded [.index i] s.trace (.returns (st.getString s i)) := by
  unfold StringTable.getString
  split_ifs <;> rfl

include hf hr hp

theorem recorded_parseArray (w : Nat) :
    Recorded (.count (leNat (r.readNumber w).1) (r.readNumber w).2.p ::
        if sizes (toInt32 (leNat (r.readNumber w).1)) 0 then
          declaredItems sizes rd dec (leNat (r.readNumber w).1) (r.readNumber w).2 else []) tr
      (parseArray sizes w parser ⟨⟨S, h, T, p⟩, r, tr⟩) := by
  refine Recorded.of_log (e := .createtable (leNat (r.readNumber w).1)
    (toInt32 (leNat (r.readNumber w).1)) (r.readNumber w).2.p) rfl ?_
  simp only [parseArray, ParseState.readNumber, ParseState.log, ParseState.callLua, createtable]
  by_cases hs : sizes (toInt32 (leNat (r.readNumber w).1)) 0 = true
  · have hlt := hp.lt_length
    simp only [hs, if_true, newtable_mk, Run.returns_bind]
    exact recorded_parseArrayLoop hf hr S h.length T (by omega) _ 0 _ _ _ _
      (hp.grows (Grows.append h _)) (le_max_right _ _)
  · simp only [hs, Bool.false_eq_true, if_false, Run.raises_bind]
    exact rfl

theorem recorded_parseTable (w : Nat) :
    Recorded (.count (leNat (r.readNumber w).1) (r.readNumber w).2.p ::
        if sizes 0 (toInt32 (leNat (r.readNumber w).1)) then
          declaredEntries sizes rd dec (leNat (r.readNumber w).1) (r.readNumber w).2 else []) tr
      (parseTable sizes w parser ⟨⟨S, h, T, p⟩, r, tr⟩) := by
  refine Recorded.of_log (e := .createtable (leNat (r.readNumber w).1)
    (toInt32 (leNat (r.readNumber w).1)) (r.readNumber w).2.p) rfl ?_
  simp only [parseTable, ParseState.readNumber, ParseState.log, ParseState.callLua, createtable]
  by_cases hs : sizes 0 (toInt32 (leNat (r.readNumber w).1)) = true
  · have hlt := hp.lt_length
    simp only [hs, if_true, newtable_mk, Run.returns_bind]
    exact recorded_parseTableLoop hf hr S h.length T (by omega) _ _ _ _ _
      (hp.grows (Grows.append h _)) (le_max_right _ _)
  · simp only [hs, Bool.false_eq_true, if_false, Run.raises_bind]
    exact rfl

/-- Each entry of the table `parsers`. -/
theorem recorded_parsers (type : BinaryType) :
    Recorded (type.declared sizes rd dec (r.readNumber type.width).1 (r.readNumber type.width).2) tr
      (parsers sizes st parser type ⟨⟨S, h, T, p⟩, r, tr⟩) := by
  cases type with
  | tString8 | tString16 | tString32 => exact recorded_getString _ _
  | tArray8 | tArray16 | tArray32 => exact recorded_parseArray hf hr T r tr hp _
  | tTable8 | tTable16 | tTable32 => exact recorded_parseTable hf hr T r tr hp _
  | _ => exact rfl

end

/-- From a state with the pool in place, `parserValue` records what the document declares. -/
theorem recorded_parserValue (sizes : TableSizes) (st : StringTable) (pref : Nat) (t : LuaTable) :
    ∀ fuel, RecordsReading st pref t (declaredDoc sizes (poolDoc t st.size) fuel)
      (parserValue sizes st fuel)
  | 0 => fun _ _ _ _ _ _ _ _ => trivial
  | fuel + 1 => by
    intro S h T p r tr hp _
    simp only [parserValue, declaredDoc, ParseState.log]
    cases BinaryType.ofNat? r.readType.1 with
    | none => exact rfl
    | some type =>
      exact recorded_parsers (follows_parserValue sizes st pref t fuel)
        (recorded_parserValue sizes st pref t fuel) T _ (.value r.p :: tr) hp type

end Reader

end LuaBinaryTable
