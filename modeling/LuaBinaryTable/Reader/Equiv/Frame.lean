import LuaBinaryTable.Lua.Ensures
import LuaBinaryTable.Reader.Equiv.ParseBinaryTable

/-!
# What the decoder leaves alone

Whatever the input, and whether `parseBinaryTable` returns a value, fails or raises an error, the
tables that were there before the run are as they were (`framed_parseBinaryTable`).  A table is
filled while it lies on the top of the stack, and it is a new one then.
-/

namespace LuaBinaryTable

namespace Reader

open LuaState

variable {sizes : TableSizes} {st : StringTable} {pref : Nat} {t : LuaTable}

/-- The heap has grown from `h`, and the global `table` is still `T`. -/
def Framed (h : List LuaTable) (T : Thread) (L : LuaState) : Prop :=
  Grows h L.heap ∧ L.thread = T

/-- The same, apart from the table at `ref`. -/
def FramedExcept (ref : Nat) (h : List LuaTable) (T : Thread) (L : LuaState) : Prop :=
  GrowsExcept ref h L.heap ∧ L.thread = T

theorem FramedExcept.of_later {ref : Nat} {h h' : List LuaTable} {T : Thread} {L : LuaState}
    (hg : GrowsExcept ref h h') (hL : FramedExcept ref h' T L) : FramedExcept ref h T L :=
  ⟨hg.trans hL.1, hL.2⟩

theorem Framed.except {ref : Nat} {h h' : List LuaTable} {T : Thread} {L : LuaState}
    (hg : GrowsExcept ref h h') (hL : Framed h' T L) : FramedExcept ref h T L :=
  ⟨hg.trans (hL.1.except ref), hL.2⟩

/-- A run of the decoder after which `P` holds of the Lua state, however it ends. -/
abbrev LeavesLua (P : LuaState → Prop) (x : Run ParseState (Bool × ParseState)) : Prop :=
  x.Ensures (fun a => P a.2.L) fun s => P s.L

/-- A parser that leaves the heap of its caller alone, wherever the pool is in place. -/
def KeepsHeap (st : StringTable) (pref : Nat) (t : LuaTable) (parser : ValueParser) : Prop :=
  ∀ S h T p r tr, PoolAt st pref t S h →
    LeavesLua (Framed h T) (parser ⟨⟨S, h, T, p⟩, r, tr⟩)

section

variable {rd : BinaryReader → Doc × BinaryReader} {parser : ValueParser}
  (hf : FollowsReading sizes st pref t rd parser) (hk : KeepsHeap st pref t parser)
  (S : List LuaValue) (ref : Nat) (T : Thread) (hne : pref ≠ ref)

include hf hk hne

/-- The loop stores into the table it fills and into no other one. -/
theorem framed_parseArrayLoop : ∀ (n i : Nat) (h : List LuaTable) (p : Nat) (r : BinaryReader)
    (tr : List ParseEvent), PoolAt st pref t S h → S.length + 1 ≤ p →
      LeavesLua (FramedExcept ref h T) (parseArrayLoop parser n i ⟨⟨.table ref :: S, h, T, p⟩, r, tr⟩)
  | 0, _, h, _, _, _, _, _ => ⟨GrowsExcept.refl ref h, rfl⟩
  | n + 1, i, h, p, r, tr, hp, hle => by
    rw [parseArrayLoop]
    have hkeep := hk (.table ref :: S) h T p r tr (hp.push _)
    have hfollow := hf (.table ref :: S) h T p r tr (hp.push _) hle
    refine hkeep.bind_of_returns (fun _ hL => hL.except (GrowsExcept.refl ref h)) ?_
    rintro ⟨ok, s⟩ hrun hL
    cases ok with
    | false => exact hL.except (GrowsExcept.refl ref h)
    | true =>
      -- the element is on the top, and is stored into the table below it
      rw [hrun] at hfollow
      obtain ⟨L, r', tr'⟩ := s
      obtain ⟨_, rfl, rfl⟩ := hfollow
      have hg := Doc.grows_materialise (rd r).1 h
      simp only [if_true, rawseti_mk]
      refine (framed_parseArrayLoop n (i + 1) _ _ _ _ ((hp.grows hg).modify hne _) (by omega)).imp
        (fun a => ?_) fun s => ?_
      all_goals exact FramedExcept.of_later ((hg.except ref).trans (GrowsExcept.modify ref _ _))

theorem framed_parseTableLoop : ∀ (n : Nat) (h : List LuaTable) (p : Nat) (r : BinaryReader)
    (tr : List ParseEvent), PoolAt st pref t S h → S.length + 1 ≤ p →
      LeavesLua (FramedExcept ref h T) (parseTableLoop parser n ⟨⟨.table ref :: S, h, T, p⟩, r, tr⟩)
  | 0, h, _, _, _, _, _ => ⟨GrowsExcept.refl ref h, rfl⟩
  | n + 1, h, p, r, tr, hp, hle => by
    rw [parseTableLoop]
    have hkeep := hk (.table ref :: S) h T p r tr (hp.push _)
    have hfollow := hf (.table ref :: S) h T p r tr (hp.push _) hle
    refine hkeep.bind_of_returns (fun _ hL => hL.except (GrowsExcept.refl ref h)) ?_
    rintro ⟨ok, s⟩ hrun hL
    cases ok with
    | false => exact hL.except (GrowsExcept.refl ref h)
    | true =>
      rw [hrun] at hfollow
      obtain ⟨L, r', tr'⟩ := s
      obtain ⟨hcomplete, rfl, rfl⟩ := hfollow
      have hg := Doc.grows_materialise (rd r).1 h
      have hslots := Doc.one_le_slots hcomplete
      simp only [if_true]
      -- the value comes above the key
      have hp' := ((hp.grows hg).push (.table ref)).push ((rd r).1.materialise h).1
      have hkeep' := hk _ ((rd r).1.materialise h).2 T
        (max p ((LuaValue.table ref :: S).length + (rd r).1.slots sizes)) (rd r).2 tr' hp'
      have hfollow' := hf _ ((rd r).1.materialise h).2 T
        (max p ((LuaValue.table ref :: S).length + (rd r).1.slots sizes)) (rd r).2 tr' hp'
        (by simp only [List.length_cons]; omega)
      refine hkeep'.bind_of_returns (fun _ hL => hL.except (hg.except ref)) ?_
      rintro ⟨ok, s⟩ hrun' hL'
      cases ok with
      | false => exact hL'.except (hg.except ref)
      | true =>
        rw [hrun'] at hfollow'
        obtain ⟨L, r', tr'⟩ := s
        obtain ⟨_, rfl, rfl⟩ := hfollow'
        have hg' := hg.trans (Doc.grows_materialise (rd (rd r).2).1 ((rd r).1.materialise h).2)
        simp only [if_true, ParseState.callLua, rawset_mk]
        by_cases hkey : ((rd r).1.materialise h).1.isKey = true
        · simp only [hkey, if_true, Run.returns_bind]
          refine (framed_parseTableLoop n _ _ _ _ ((hp.grows hg').modify hne _) (by omega)).imp
            (fun a => ?_) fun s => ?_
          all_goals exact FramedExcept.of_later ((hg'.except ref).trans (GrowsExcept.modify ref _ _))
        · -- the key is refused, and the tables stay as the value has left them
          simp only [hkey, Bool.false_eq_true, if_false, Run.raises_bind]
          exact ⟨hg'.except ref, rfl⟩

end

section

variable {rd : BinaryReader → Doc × BinaryReader} {parser : ValueParser}
  (hf : FollowsReading sizes st pref t rd parser) (hk : KeepsHeap st pref t parser)
  {S : List LuaValue} {h : List LuaTable} (T : Thread) {p : Nat} (r : BinaryReader)
  (tr : List ParseEvent) (hp : PoolAt st pref t S h)

/-- What fills a new table leaves the others alone. -/
theorem framed_of_loop {x : Run ParseState (Bool × ParseState)}
    (hx : LeavesLua (FramedExcept h.length (h ++ [LuaTable.empty]) T) x) : LeavesLua (Framed h T) x :=
  hx.imp (fun _ hL => ⟨hL.1.grows, hL.2⟩) fun _ hL => ⟨hL.1.grows, hL.2⟩

include hf hk hp

theorem framed_parseArray (w : Nat) :
    LeavesLua (Framed h T) (parseArray sizes w parser ⟨⟨S, h, T, p⟩, r, tr⟩) := by
  simp only [parseArray, ParseState.readNumber, ParseState.log, ParseState.callLua, createtable]
  by_cases hs : sizes (toInt32 (leNat (r.readNumber w).1)) 0 = true
  · simp only [hs, if_true, newtable_mk, Run.returns_bind]
    have hne := hp.lt_length
    exact framed_of_loop T (framed_parseArrayLoop hf hk S h.length T (by omega) _ 0 _ _ _ _
      (hp.grows (Grows.append h _)) (by omega))
  · simp only [hs, Bool.false_eq_true, if_false, Run.raises_bind]
    exact ⟨Grows.refl h, rfl⟩

theorem framed_parseTable (w : Nat) :
    LeavesLua (Framed h T) (parseTable sizes w parser ⟨⟨S, h, T, p⟩, r, tr⟩) := by
  simp only [parseTable, ParseState.readNumber, ParseState.log, ParseState.callLua, createtable]
  by_cases hs : sizes 0 (toInt32 (leNat (r.readNumber w).1)) = true
  · simp only [hs, if_true, newtable_mk, Run.returns_bind]
    have hne := hp.lt_length
    exact framed_of_loop T (framed_parseTableLoop hf hk S h.length T (by omega) _ _ _ _ _
      (hp.grows (Grows.append h _)) (by omega))
  · simp only [hs, Bool.false_eq_true, if_false, Run.raises_bind]
    exact ⟨Grows.refl h, rfl⟩

theorem framed_parsers (type : BinaryType) :
    LeavesLua (Framed h T) (parsers sizes st parser type ⟨⟨S, h, T, p⟩, r, tr⟩) := by
  cases type with
  | tString8 | tString16 | tString32 =>
    simp only [parsers, parseString, StringTable.getString]
    split_ifs <;> exact ⟨Grows.refl h, rfl⟩
  | tArray0 | tTable0 => exact ⟨Grows.append h _, rfl⟩
  | tArray8 | tArray16 | tArray32 => exact framed_parseArray hf hk T r tr hp _
  | tTable8 | tTable16 | tTable32 => exact framed_parseTable hf hk T r tr hp _
  | _ => exact ⟨Grows.refl h, rfl⟩

end

theorem keepsHeap_parserValue (sizes : TableSizes) (st : StringTable) (pref : Nat) (t : LuaTable) :
    ∀ fuel, KeepsHeap st pref t (parserValue sizes st fuel)
  | 0 => fun _ _ _ _ _ _ _ => trivial
  | fuel + 1 => by
    intro S h T p r tr hp
    simp only [parserValue, ParseState.log]
    cases BinaryType.ofNat? r.readType.1 with
    | none => exact ⟨Grows.refl h, rfl⟩
    | some type =>
      exact framed_parsers (follows_parserValue sizes st pref t fuel)
        (keepsHeap_parserValue sizes st pref t fuel) T _ _ hp type

/-- No run of `parseBinaryTable` changes a table that was there before it, nor the global `table`:
not one that fails or raises an error either, whatever the bytes are. -/
theorem framed_parseBinaryTable (sizes : TableSizes) (L : LuaState) (data : Bytes) :
    (parseBinaryTable sizes L data).Ensures (fun a => Framed L.heap L.thread a.2.L)
      fun s => Framed L.heap L.thread s.L := by
  have hsame : Framed L.heap L.thread L := ⟨Grows.refl L.heap, rfl⟩
  simp only [parseBinaryTable, ParseState.readNumber]
  split_ifs
  · exact hsame
  · exact hsame
  rcases hpool : readPool
      (leNat (((BinaryReader.readNumber 2 ⟨data, 0⟩).2.readNumber 2).2.readNumber
        stringPoolLengthSize).1)
      (((BinaryReader.readNumber 2 ⟨data, 0⟩).2.readNumber 2).2.readNumber
        stringPoolLengthSize).2 with ⟨strs, ok, r₂⟩
  obtain ⟨tr', hparse⟩ := parse_eq sizes L ((BinaryReader.readNumber 2 ⟨data, 0⟩).2.readNumber 2).2
    [] rfl rfl hpool
  rw [hparse]
  have hnew := Grows.append L.heap [poolTable strs]
  -- the pool is a new table, and `parserValue` changes that and the tables behind it alone
  split_ifs with hs
  · rw [Run.returns_bind]
    cases ok with
    | false => exact ⟨hnew, rfl⟩
    | true =>
      have hlen := length_readPool _ _ (by rw [hpool])
      rw [hpool] at hlen
      rw [← hlen, if_pos rfl]
      have hkeep := keepsHeap_parserValue sizes _ L.heap.length (poolTable strs)
        (data.length + 1) _ _ L.thread
        (max (max L.peak (L.gettop + 1)) (L.gettop + 1 + min 1 strs.length)) r₂ tr'
        (poolAt_poolTable L strs)
      refine hkeep.bind_of_returns (fun _ hL => ⟨hnew.trans hL.1, hL.2⟩) ?_
      rintro ⟨ok, s⟩ _ hL
      cases ok with
      | true => exact ⟨hnew.trans hL.1, hL.2⟩
      | false => exact ⟨hnew.trans hL.1, hL.2⟩
  · exact hsame

end Reader

end LuaBinaryTable
