import LuaBinaryTable.Reader.Equiv.ParserValue
import LuaBinaryTable.Reader.Steps

/-!
# `parserValue` takes steps

`traced_parserValue`: from a state with the pool in place, a run of `parserValue` is a sequence of
`ParseStep`s, followed by one `ParseStop` where it fails.
-/

namespace LuaBinaryTable

namespace Reader

open LuaState

variable {sizes : TableSizes} {st : StringTable} {pref : Nat} {t : LuaTable}

/-- A run of the decoder from the progress `a` that takes steps. -/
def Traced (size : Nat) (t : LuaTable) (a : Progress) : Run ParseState (Bool × ParseState) → Prop
  | .returns (true, s) => ParseSteps size t a (progress s)
  | .returns (false, s) => ∃ b, ParseSteps size t a b ∧ ParseStop size b (progress s)
  | .raises s => ParseSteps size t a (progress s)
  | .diverges => True

namespace Traced

variable {size : Nat} {a b : Progress} {x : Run ParseState (Bool × ParseState)}

theorem of_steps (h : ParseSteps size t a b) (hx : Traced size t b x) : Traced size t a x := by
  match x, hx with
  | .returns (true, s), hx => exact h.trans hx
  | .returns (false, s), ⟨c, hc, hstop⟩ => exact ⟨c, h.trans hc, hstop⟩
  | .raises s, hx => exact h.trans hx
  | .diverges, _ => trivial

theorem of_step (h : ParseStep size t a b) (hx : Traced size t b x) : Traced size t a x :=
  of_steps (.single h) hx

/-- A run goes on where its first part succeeds. -/
theorem bind {f : Bool × ParseState → Run ParseState (Bool × ParseState)} (hx : Traced size t a x)
    (hfail : ∀ s, f (false, s) = .returns (false, s))
    (hok : ∀ s, x = .returns (true, s) → Traced size t (progress s) (f (true, s))) :
    Traced size t a (x >>= f) := by
  match x, hx with
  | .returns (true, s), hx => exact of_steps hx (hok s rfl)
  | .returns (false, s), hx =>
    rw [Run.returns_bind, hfail]
    exact hx
  | .raises s, hx => exact hx
  | .diverges, _ => trivial

end Traced

/-- A parser that takes steps, wherever the pool is in place. -/
def TakesSteps (st : StringTable) (pref : Nat) (t : LuaTable) (parser : ValueParser) : Prop :=
  ∀ S h T p r tr, PoolAt st pref t S h → S.length ≤ p →
    Traced st.size t ⟨r, tr⟩ (parser ⟨⟨S, h, T, p⟩, r, tr⟩)

theorem traced_getString {S : List LuaValue} {h : List LuaTable} (T : Thread) (p : Nat)
    (r : BinaryReader) (tr : List ParseEvent) (hp : PoolAt st pref t S h) (i : Nat) :
    Traced st.size t ⟨r, tr⟩ (.returns (st.getString ⟨⟨S, h, T, p⟩, r, tr⟩ i)) := by
  unfold StringTable.getString
  split_ifs with hi
  · have hget : rawField h (slot S st.handle) (integer (toInt32 i)) =
        t.get (integer (toInt32 i)) := by
      rw [hp.onStack, rawField, hp.inHeap]
      rfl
    simp only [rawgeti_mk _ _ _ _ hp.pos, hget, index2adr_top]
    exact .single (.string r tr i hi)
  · exact ⟨_, .refl, .string r tr i (not_le.mp hi)⟩

/-! ### Loops -/

section

variable {rd : BinaryReader → Doc × BinaryReader} {parser : ValueParser}
  (hf : FollowsReading sizes st pref t rd parser) (ht : TakesSteps st pref t parser)

include hf ht

theorem traced_parseArrayLoop (S : List LuaValue) (ref : Nat) (T : Thread) (hne : pref ≠ ref) :
    ∀ (n i : Nat) (h : List LuaTable) (p : Nat) (r : BinaryReader) (tr : List ParseEvent),
      PoolAt st pref t S h → S.length + 1 ≤ p →
      Traced st.size t ⟨r, tr⟩ (parseArrayLoop parser n i ⟨⟨.table ref :: S, h, T, p⟩, r, tr⟩)
  | 0, _, _, _, _, _, _, _ => .refl
  | n + 1, i, h, p, r, tr, hp, hle => by
    rw [parseArrayLoop]
    refine (ht _ h T p r tr (hp.push _) hle).bind (fun _ => rfl) ?_
    rintro ⟨L, r', tr'⟩ hs
    have hfol := hf (.table ref :: S) h T p r tr (hp.push _) hle
    rw [hs] at hfol
    obtain ⟨_, rfl, _⟩ := hfol
    simp only [if_true, rawseti_mk]
    exact traced_parseArrayLoop S ref T hne n (i + 1) _ _ r' tr'
      ((hp.grows (Doc.grows_materialise _ h)).modify hne _) (by omega)

theorem traced_parseTableLoop (S : List LuaValue) (ref : Nat) (T : Thread) (hne : pref ≠ ref) :
    ∀ (n : Nat) (h : List LuaTable) (p : Nat) (r : BinaryReader) (tr : List ParseEvent),
      PoolAt st pref t S h → S.length + 1 ≤ p →
      Traced st.size t ⟨r, tr⟩ (parseTableLoop parser n ⟨⟨.table ref :: S, h, T, p⟩, r, tr⟩)
  | 0, _, _, _, _, _, _ => .refl
  | n + 1, h, p, r, tr, hp, hle => by
    rw [parseTableLoop]
    refine (ht _ h T p r tr (hp.push _) hle).bind (fun _ => rfl) ?_
    rintro ⟨L, r', tr'⟩ hs
    have hfol := hf (.table ref :: S) h T p r tr (hp.push _) hle
    rw [hs] at hfol
    obtain ⟨hk, rfl, _⟩ := hfol
    -- the value is read above the key, in a heap that the key may have grown
    have hp' := hp.grows (Doc.grows_materialise (rd r).1 h)
    have hslots := Doc.one_le_slots hk
    have hle' : (((rd r).1.materialise h).1 :: LuaValue.table ref :: S).length ≤
        max p ((LuaValue.table ref :: S).length + (rd r).1.slots sizes) := by
      simp only [List.length_cons]
      omega
    simp only [if_true]
    refine (ht _ _ T _ r' tr' ((hp'.push _).push _) hle').bind (fun _ => rfl) ?_
    rintro ⟨L, r'', tr''⟩ hs'
    have hfol' := hf _ _ T _ r' tr' ((hp'.push _).push _) hle'
    rw [hs'] at hfol'
    obtain ⟨_, rfl, _⟩ := hfol'
    simp only [if_true, ParseState.callLua, rawset_mk]
    split_ifs with hkey
    · exact traced_parseTableLoop S ref T hne n _ _ r'' tr''
        ((hp'.grows (Doc.grows_materialise _ _)).modify hne _) (by omega)
    · exact .refl

end

/-! ### Values -/

/-- A count of at most four bytes. -/
theorem leNat_readNumber_lt {w : Nat} (hw : w ≤ 4) (r : BinaryReader) :
    leNat (r.readNumber w).1 < 2 ^ 32 := by
  have hlt := leNat_lt (r.readNumber w).1
  rw [BinaryReader.length_readNumber] at hlt
  exact lt_of_lt_of_le hlt (Nat.pow_le_pow_right (by decide) hw)

section

variable {rd : BinaryReader → Doc × BinaryReader} {parser : ValueParser}
  (hf : FollowsReading sizes st pref t rd parser) (ht : TakesSteps st pref t parser)
  {S : List LuaValue} {h : List LuaTable} (T : Thread) {p : Nat} (r : BinaryReader)
  (tr : List ParseEvent) (hp : PoolAt st pref t S h)

include hf ht hp

theorem traced_parseArray {w : Nat} (hw : w ≤ 4) :
    Traced st.size t ⟨r, tr⟩ (parseArray sizes w parser ⟨⟨S, h, T, p⟩, r, tr⟩) := by
  refine .of_step (.number r tr w) (.of_step
    (.createtable (r.readNumber w).2 tr _ (leNat_readNumber_lt hw r)) ?_)
  simp only [parseArray, ParseState.readNumber, ParseState.log, ParseState.callLua, createtable]
  by_cases hs : sizes (toInt32 (leNat (r.readNumber w).1)) 0 = true
  · have hlt := hp.lt_length
    simp only [hs, if_true, newtable_mk, Run.returns_bind]
    exact traced_parseArrayLoop hf ht S h.length T (by omega) _ 0 _ _ _ _
      (hp.grows (Grows.append h _)) (le_max_right _ _)
  · simp only [hs, Bool.false_eq_true, if_false, Run.raises_bind]
    exact Relation.ReflTransGen.refl

theorem traced_parseTable {w : Nat} (hw : w ≤ 4) :
    Traced st.size t ⟨r, tr⟩ (parseTable sizes w parser ⟨⟨S, h, T, p⟩, r, tr⟩) := by
  refine .of_step (.number r tr w) (.of_step
    (.createtable (r.readNumber w).2 tr _ (leNat_readNumber_lt hw r)) ?_)
  simp only [parseTable, ParseState.readNumber, ParseState.log, ParseState.callLua, createtable]
  by_cases hs : sizes 0 (toInt32 (leNat (r.readNumber w).1)) = true
  · have hlt := hp.lt_length
    simp only [hs, if_true, newtable_mk, Run.returns_bind]
    exact traced_parseTableLoop hf ht S h.length T (by omega) _ _ _ _ _
      (hp.grows (Grows.append h _)) (le_max_right _ _)
  · simp only [hs, Bool.false_eq_true, if_false, Run.raises_bind]
    exact Relation.ReflTransGen.refl

/-- Each entry of the table `parsers` but the first. -/
theorem traced_parsers {type : BinaryType} (hne : type ≠ .tEof) :
    Traced st.size t ⟨r, tr⟩ (parsers sizes st parser type ⟨⟨S, h, T, p⟩, r, tr⟩) := by
  cases type with
  | tEof => exact absurd rfl hne
  | tInt8 | tInt16 | tInt32 | tInt64 | tFloat | tDouble => exact .single (.number r tr _)
  | tString8 | tString16 | tString32 =>
    exact .of_step (.number r tr _) (traced_getString T p _ tr hp _)
  | tArray8 | tArray16 | tArray32 => exact traced_parseArray hf ht T r tr hp (by decide)
  | tTable8 | tTable16 | tTable32 => exact traced_parseTable hf ht T r tr hp (by decide)
  | _ => exact .refl

end

/-- A tag other than `T_EOF` lies inside the input. -/
theorem lt_of_readType {r : BinaryReader} {type : BinaryType}
    (h : BinaryType.ofNat? r.readType.1 = some type) (hne : type ≠ .tEof) :
    r.p < r.data.length := by
  by_contra hlt
  have hz : r.readType.1 = 0 := by
    simp only [BinaryReader.readType, BinaryReader.readNumber, if_neg (show ¬ r.p + 1 ≤
      r.data.length by omega)]
    rfl
  rw [hz] at h
  exact hne (Option.some.inj h).symm

/-- From a state with the pool in place, `parserValue` takes steps. -/
theorem traced_parserValue (sizes : TableSizes) (st : StringTable) (pref : Nat) (t : LuaTable) :
    ∀ fuel, TakesSteps st pref t (parserValue sizes st fuel)
  | 0 => fun _ _ _ _ _ _ _ _ => trivial
  | fuel + 1 => by
    intro S h T p r tr hp hle
    simp only [parserValue, ParseState.log]
    cases htype : BinaryType.ofNat? r.readType.1 with
    | none => exact ⟨_, .refl, .tag r tr⟩
    | some type =>
      by_cases hne : type = .tEof
      · subst hne
        exact ⟨_, .refl, .tag r tr⟩
      · refine .of_step (.tag r tr (lt_of_readType htype hne)) ?_
        exact traced_parsers (follows_parserValue sizes st pref t fuel)
          (traced_parserValue sizes st pref t fuel) T _ _ hp hne

end Reader

end LuaBinaryTable
