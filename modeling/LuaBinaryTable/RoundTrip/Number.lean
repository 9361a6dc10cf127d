import LuaBinaryTable.Document.Equiv.Encode
import LuaBinaryTable.Document.Portable
import LuaBinaryTable.Reader.PointerWidth

/-!
# Integral numbers, written and read

`writeValue` casts every number that equals its own `round` to `int64_t`, and the cast keeps the
value of the numbers in the range of that type only (`numbersSurvive_iff`).  What `writeInteger`
emits is decoded to the number it stands for where `lua_Integer` has 64 bits, and where it has 32
bits exactly if the number fits those (`decodesAlike_iff`).
-/

namespace LuaBinaryTable

open Reader

variable {env : Env}

/-- What `writeValue` appends for a number. -/
def numberBytes (env : Env) (v : Binary64) : Bytes :=
  match writeValue env 1 (-1) ⟨.entry [.number v] [] (.fresh .nil), ⟨0, 0, 0, 0⟩, .empty⟩ with
  | .returns (_, s) => s.stream.data
  | _ => []

/-- A decoder takes the bytes for a number equal to `v`, whatever its state and whatever follows
them. -/
def DecodesTo (parser : TableSizes → Reader.StringTable → Nat → ValueParser) (bs : Bytes)
    (v : Binary64) : Prop :=
  ∀ sizes strTable fuel (s : ParseState), s.reader.Ahead bs → ∃ x tr,
    parser sizes strTable (fuel + 1) s =
        .returns (true, ⟨s.L.pushnumber x, s.reader.skip bs.length, tr⟩) ∧ x.equal v = true

/-! ### The encoder -/

theorem numberBytes_eq {v : Binary64} (hv : v.isIntegral = true) :
    numberBytes env v = (integerType (castInt64 env v.round)).node (castInt64 env v.round) := by
  have hround : v.equal v.round = true := hv
  have hadr : LuaState.index2adr (.entry [.number v] [] (.fresh .nil)) (-1) = .number v := rfl
  simp only [numberBytes, writeValue, hadr, hround, if_true, Run.pure_eq, data_writeInteger,
    BinaryWriter.data_empty, List.nil_append]

/-- In every state, `writeValue` appends these bytes and changes nothing else. -/
theorem writeValue_number {v : Binary64} (hv : v.isIntegral = true) {idx : Int} {s : WriteState}
    (hs : s.L.index2adr idx = .number v) (fuel : Nat) :
    ∃ stream, writeValue env (fuel + 1) idx s = .returns (true, { s with stream := stream }) ∧
      stream.data = s.stream.data ++ numberBytes env v := by
  have hround : v.equal v.round = true := hv
  refine ⟨writeInteger s.stream (castInt64 env v.round), ?_, ?_⟩
  · simp only [writeValue, hs, hround, if_true, Run.pure_eq]
  · rw [data_writeInteger, numberBytes_eq hv]

/-- The bytes of a number in range are those of its value. -/
theorem numberBytes_of_inInt64 {v : Binary64} (hv : v.isIntegral = true)
    (hr : Binary64.InInt64 v.trunc) :
    numberBytes env v = (integerType v.trunc).node v.trunc := by
  rw [numberBytes_eq hv, castInt64_round hv hr]

/-! ### The decoder -/

section

variable {bits : Nat} {s : ParseState} (sizes : TableSizes) (st : Reader.StringTable) (fuel : Nat)

/-- `parserValue` on a tag with its payload. -/
theorem parserValueAt_of_node {type : BinaryType} {payload : Int}
    (ha : s.reader.Ahead (type.node payload)) :
    ∃ tr, parserValueAt bits sizes st (fuel + 1) s =
        parsersAt bits sizes st (parserValueAt bits sizes st fuel) type
          ⟨s.L, s.reader.skip 1, tr⟩ ∧
      (s.reader.skip 1).Ahead (leBytesInt type.width payload) := by
  obtain ⟨htype, hpayload⟩ := BinaryReader.readType_of_ahead ha
  refine ⟨.value s.reader.p :: s.trace, ?_, hpayload⟩
  simp only [parserValueAt, ParseState.log, htype, BinaryType.ofNat?_value]

/-- `_parseInteger` on the bytes of an integer of its width. -/
theorem parseIntegerAt_of_ahead {w : Nat} {z : Int} (hlo : -(256 ^ w : Int) ≤ 2 * z)
    (hhi : 2 * z < 256 ^ w) (ha : s.reader.Ahead (leBytesInt w z)) :
    parseIntegerAt bits w s = .returns (true,
      ⟨s.L.pushinteger (luaInteger bits z), s.reader.skip w, s.trace⟩) := by
  simp only [parseIntegerAt, ParseState.readNumber, BinaryReader.readInt_of_ahead ha,
    leInt_leBytesInt hlo hhi, Run.pure_eq]

/-- An integer is decoded to what `lua_Integer` holds of it. -/
theorem parserValueAt_integer (hbits : 2 ≤ bits) {z : Int} (hz : Binary64.InInt64 z)
    (ha : s.reader.Ahead ((integerType z).node z)) :
    ∃ tr, parserValueAt bits sizes st (fuel + 1) s = .returns (true,
      ⟨s.L.pushnumber (.ofInt (luaInteger bits z)),
        s.reader.skip ((integerType z).node z).length, tr⟩) := by
  obtain ⟨hlo, hhi⟩ := hz
  obtain ⟨tr, hrun, hpayload⟩ := parserValueAt_of_node sizes st fuel ha
  refine ⟨tr, ?_⟩
  rw [hrun, length_node, ← BinaryReader.skip_skip]
  have hpow : (4 : Int) ≤ 2 ^ bits := by
    calc (4 : Int) = 2 ^ 2 := rfl
      _ ≤ 2 ^ bits := pow_le_pow_right₀ (by decide) hbits
  unfold integerType at hpayload ⊢
  split_ifs at hpayload ⊢ with h0 h1 h8 h16 h32
  · rw [h0, luaInteger_of_le (by omega) (by omega)]
    rfl
  · rw [h1, luaInteger_of_le (by omega) (by omega)]
    rfl
  · exact parseIntegerAt_of_ahead (w := 1) (by omega) (by omega) hpayload
  · exact parseIntegerAt_of_ahead (w := 2) (by omega) (by omega) hpayload
  · exact parseIntegerAt_of_ahead (w := 4) (by omega) (by omega) hpayload
  · exact parseIntegerAt_of_ahead (w := 8) (by omega) (by omega) hpayload

end

/-- What is pushed is determined by the run. -/
theorem pushnumber_inj {L : LuaState} {x y : Binary64} {r r' : BinaryReader}
    {tr tr' : List ParseEvent} (h : (Run.returns (true, ⟨L.pushnumber x, r, tr⟩) :
      Run ParseState (Bool × ParseState)) = .returns (true, ⟨L.pushnumber y, r', tr'⟩)) : x = y := by
  injection h with h
  injection h with _ h
  injection h with hL
  injection hL with hstack
  injection hstack with hv
  injection hv

/-- The decoded number is the one written exactly where `lua_Integer` keeps it. -/
theorem decodesTo_integer_iff {bits : Nat} (hbits : 2 ≤ bits) {v : Binary64}
    (hr : Binary64.InInt64 v.trunc) :
    DecodesTo (parserValueAt bits) ((integerType v.trunc).node v.trunc) v ↔
      (Binary64.ofInt (luaInteger bits v.trunc)).equal v = true := by
  constructor
  · intro h
    -- the bytes alone, on an empty stack
    have ha : (BinaryReader.mk ((integerType v.trunc).node v.trunc) 0).Ahead
        ((integerType v.trunc).node v.trunc) := List.prefix_refl _
    obtain ⟨x, tr, hx, heq⟩ := h (fun _ _ => true) ⟨0, 0⟩ 0 ⟨.entry [] [] (.fresh .nil), ⟨_, 0⟩, []⟩ ha
    obtain ⟨tr', hx'⟩ := parserValueAt_integer (fun _ _ => true) ⟨0, 0⟩ 0 hbits hr
      (s := ⟨.entry [] [] (.fresh .nil), ⟨_, 0⟩, []⟩) ha
    rw [hx'] at hx
    rw [pushnumber_inj hx]
    exact heq
  · intro h sizes st fuel s ha
    obtain ⟨tr, hrun⟩ := parserValueAt_integer sizes st fuel hbits hr ha
    exact ⟨_, tr, hrun, h⟩

theorem decodesTo_of_inInt64 {v : Binary64} (hv : v.isIntegral = true)
    (hr : Binary64.InInt64 v.trunc) :
    DecodesTo (parserValueAt 64) ((integerType v.trunc).node v.trunc) v := by
  rw [decodesTo_integer_iff (by decide) hr]
  obtain ⟨hlo, hhi⟩ := hr
  rw [luaInteger_of_le (by omega) (by omega)]
  exact Binary64.ofInt_trunc_equal hv (by omega)

/-! ### Numbers of any magnitude -/

/-- The cast is applied to what `int64_t` can represent, and the decoder takes the bytes that
`writeValue` appends, in whatever state, for an equal number. -/
structure Survives (env : Env) (v : Binary64) : Prop where
  cast : Binary64.InInt64 v.round.trunc
  written : ∀ fuel idx (s : WriteState), s.L.index2adr idx = .number v → ∃ stream,
    writeValue env (fuel + 1) idx s = .returns (true, { s with stream := stream }) ∧
      stream.data = s.stream.data ++ numberBytes env v
  read : DecodesTo parserValue (numberBytes env v) v

/-- An integral number survives exactly where the cast to `int64_t` is defined. -/
theorem survives_iff {v : Binary64} (hv : v.isIntegral = true) :
    Survives env v ↔ Binary64.InInt64 v.trunc := by
  constructor
  · intro h
    rw [← Binary64.trunc_round hv]
    exact h.cast
  · intro hr
    refine ⟨?_, fun fuel idx s hs => writeValue_number hv hs fuel, ?_⟩
    · rw [Binary64.trunc_round hv]
      exact hr
    · have hread := decodesTo_of_inInt64 hv hr
      rw [numberBytes_of_inInt64 hv hr]
      intro sizes st fuel s ha
      rw [← parserValueAt_eq]
      exact hread sizes st fuel s ha

/-- A byte string is decoded to one number. -/
theorem equal_of_decodesTo {parser : TableSizes → Reader.StringTable → Nat → ValueParser}
    {bs : Bytes} {u v : Binary64} (hu : DecodesTo parser bs u) (hv : DecodesTo parser bs v) :
    u.equal v = true := by
  obtain ⟨x, tr, hx, hxu⟩ := hu (fun _ _ => true) ⟨0, 0⟩ 0 ⟨.entry [] [] (.fresh .nil), ⟨bs, 0⟩, []⟩
    (List.prefix_refl bs)
  obtain ⟨y, tr', hy, hyv⟩ := hv (fun _ _ => true) ⟨0, 0⟩ 0 ⟨.entry [] [] (.fresh .nil), ⟨bs, 0⟩, []⟩
    (List.prefix_refl bs)
  rw [hx] at hy
  rw [← pushnumber_inj hy] at hyv
  rw [Binary64.equal_comm] at hxu
  exact Binary64.equal_trans hxu hyv

/-- Two numbers survive, with different bytes where they differ. -/
structure NumbersSurvive (env : Env) (u v : Binary64) : Prop where
  left : Survives env u
  right : Survives env v
  distinct : numberBytes env u = numberBytes env v → u.equal v = true

/-- Integral numbers survive exactly where they are 64-bit integers. -/
theorem numbersSurvive_iff {u v : Binary64} (hu : u.isIntegral = true) (hv : v.isIntegral = true) :
    NumbersSurvive env u v ↔ Binary64.InInt64 u.trunc ∧ Binary64.InInt64 v.trunc := by
  constructor
  · intro h
    exact ⟨(survives_iff hu).mp h.left, (survives_iff hv).mp h.right⟩
  · rintro ⟨hur, hvr⟩
    have hsu : Survives env u := (survives_iff hu).mpr hur
    have hsv : Survives env v := (survives_iff hv).mpr hvr
    refine ⟨hsu, hsv, fun heq => ?_⟩
    exact equal_of_decodesTo hsu.read (heq ▸ hsv.read)

theorem numbersSurvive_of_small :
    NumbersSurvive .plain (.ofInt (-1)) (.ofInt 300) :=
  (numbersSurvive_iff (by decide +kernel) (by decide +kernel)).mpr
    ⟨by decide +kernel, by decide +kernel⟩

/-- `2^63` gets the bytes of `-2^63`. -/
theorem not_numbersSurvive_two_pow_63 :
    (Binary64.ofInt (2 ^ 63)).isIntegral = true ∧ (Binary64.ofInt (-2 ^ 63)).isIntegral = true ∧
      ¬ NumbersSurvive .plain (.ofInt (2 ^ 63)) (.ofInt (-2 ^ 63)) := by
  refine ⟨by decide +kernel, by decide +kernel, fun h => ?_⟩
  have hbytes : numberBytes .plain (.ofInt (2 ^ 63)) = numberBytes .plain (.ofInt (-2 ^ 63)) := by
    decide +kernel
  have hne : (Binary64.ofInt (2 ^ 63)).equal (.ofInt (-2 ^ 63)) = false := by decide +kernel
  rw [h.distinct hbytes] at hne
  cases hne

/-! ### Pointers of 32 bits -/

/-- What `writeInteger` emits for the number is decoded to an equal one where `lua_Integer` has 64
bits and where it has 32. -/
def DecodesAlike (v : Binary64) : Prop :=
  ∀ bits : Nat, bits = 64 ∨ bits = 32 →
    DecodesTo (parserValueAt bits) (writeInteger .empty v.trunc).data v

theorem ofInt_equal_iff {z : Int} (hz : z.natAbs < 2 ^ 53) {v : Binary64}
    (hv : v.isIntegral = true) : (Binary64.ofInt z).equal v = true ↔ z = v.trunc := by
  have hscale : (Binary64.scale : Int) ≠ 0 := Int.natCast_ne_zero.mpr Binary64.scale_pos.ne'
  unfold Binary64.equal
  rw [Binary64.isNaN_ofInt_of_le hz, (Binary64.isIntegral_iff.mp hv).1,
    Binary64.units_ofInt_of_le hz, Binary64.units_eq_trunc hv]
  simp only [Bool.not_false, Bool.true_and, decide_eq_true_eq]
  exact mul_left_inj' hscale

/-- A 64-bit number decodes alike on both machines exactly where it has 32 bits. -/
theorem decodesAlike_iff {v : Binary64} (hv : v.isIntegral = true)
    (hr : Binary64.InInt64 v.trunc) :
    DecodesAlike v ↔ -2 ^ 31 ≤ v.trunc ∧ v.trunc < 2 ^ 31 := by
  have hbytes : (writeInteger .empty v.trunc).data = (integerType v.trunc).node v.trunc := by
    rw [data_writeInteger, BinaryWriter.data_empty, List.nil_append]
  have hlo := @Int.le_bmod v.trunc (2 ^ 32) (by decide)
  have hhi := @Int.bmod_lt v.trunc (2 ^ 32) (by decide)
  -- on 32 bits the number decoded is `v.trunc` wrapped around
  have h32 : DecodesTo (parserValueAt 32) ((integerType v.trunc).node v.trunc) v ↔
      luaInteger 32 v.trunc = v.trunc := by
    rw [decodesTo_integer_iff (by decide) hr, ofInt_equal_iff _ hv]
    unfold luaInteger
    omega
  unfold DecodesAlike
  rw [hbytes]
  constructor
  · intro h
    have hwrap := h32.mp (h 32 (Or.inr rfl))
    unfold luaInteger at hwrap
    omega
  · rintro ⟨h1, h2⟩ bits (rfl | rfl)
    · exact decodesTo_of_inInt64 hv hr
    · exact h32.mpr (luaInteger_of_le (by omega) (by omega))

theorem decodesAlike_of_small : DecodesAlike (.ofInt (-40000)) :=
  (decodesAlike_iff (by decide +kernel) (by decide +kernel)).mpr
    ⟨by decide +kernel, by decide +kernel⟩

/-- `2^31` is decoded to `-2^31` where `lua_Integer` has 32 bits. -/
theorem not_decodesAlike_two_pow_31 :
    (Binary64.ofInt (2 ^ 31)).isIntegral = true ∧
      Binary64.InInt64 (Binary64.ofInt (2 ^ 31)).trunc ∧ ¬ DecodesAlike (.ofInt (2 ^ 31)) := by
  refine ⟨by decide +kernel, by decide +kernel, fun h => ?_⟩
  have h32 := h 32 (Or.inr rfl)
  rw [data_writeInteger, BinaryWriter.data_empty, List.nil_append,
    decodesTo_integer_iff (by decide) (by decide +kernel)] at h32
  have hne : (Binary64.ofInt (luaInteger 32 (Binary64.ofInt (2 ^ 31)).trunc)).equal
      (.ofInt (2 ^ 31)) = false := by
    decide +kernel
  rw [h32] at hne
  cases hne

end LuaBinaryTable
