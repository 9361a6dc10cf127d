import LuaBinaryTable.Binary64.Equiv.Rounded
import LuaBinaryTable.Writer.DumpValue

/-!
# Integers in a dump

`dumpValue` prints a number with 14 significant digits.  The texts of integers denote the integers,
and those of different integers different numbers, exactly where no integer has more digits
(`dumpsIntegers_iff`).
-/

namespace LuaBinaryTable

open Binary64 LuaState

variable {env : Env}

/-- Wherever `dumpValue` meets the number, it prints the text for it. -/
def DumpsNumber (env : Env) (v : Binary64) (text : Bytes) : Prop :=
  ∀ fuel L idx indent maxIndenty stream, L.index2adr idx = .number v →
    ∃ stream', dumpValue env (fuel + 1) idx indent maxIndenty L stream = .returns (L, stream') ∧
      stream'.data = stream.data ++ text

theorem dumpsNumber_formatG14 (v : Binary64) : DumpsNumber env v v.formatG14 := by
  intro fuel L idx indent maxIndenty stream hv
  refine ⟨stream.writeBytes v.formatG14, ?_, BinaryWriter.data_writeBytes _ _⟩
  rw [dumpValue, hv]
  rfl

/-- The text of an integer denotes the integer exactly where it has at most 14 significant
digits. -/
theorem numeralValue_formatG14_iff {v : Binary64} (hv : v.isIntegral = true)
    (hle : v.trunc.natAbs ≤ 2 ^ 53) :
    numeralValue v.formatG14 = some (v.trunc : ℚ) ↔ FitsG14 v.trunc.natAbs := by
  have hsign : (v.trunc : ℚ) = (if v.negative then -1 else 1) * (v.trunc.natAbs : ℚ) := by
    conv_lhs => rw [← sign_natAbs_trunc hv]
    split_ifs
    · rw [Int.cast_neg, Int.cast_natCast, neg_one_mul]
    · rw [Int.cast_natCast, one_mul]
  have hunit : (if v.negative then -1 else 1 : ℚ) ≠ 0 := by
    split_ifs <;> norm_num
  rw [numeralValue_formatG14 hv (by omega), hsign, Option.some_inj, mul_right_inj' hunit,
    Nat.cast_inj, rounded_eq_iff]

/-- The integers that are printed, as keys or as values: the text of each of them denotes it, so
that different ones stay different, exactly where each has at most 14 significant digits. -/
theorem dumpsIntegers_iff (env : Env) (keys : List Binary64)
    (hkeys : ∀ v ∈ keys, v.isIntegral = true ∧ v.trunc.natAbs ≤ 2 ^ 53) :
    ∃ text : Binary64 → Bytes, (∀ v ∈ keys, DumpsNumber env v (text v)) ∧
      (((∀ v ∈ keys, numeralValue (text v) = some (v.trunc : ℚ)) ∧
          ∀ v ∈ keys, ∀ w ∈ keys, v.trunc ≠ w.trunc →
            numeralValue (text v) ≠ numeralValue (text w)) ↔
        ∀ v ∈ keys, FitsG14 v.trunc.natAbs) := by
  refine ⟨formatG14, fun v _ => dumpsNumber_formatG14 v, ?_⟩
  have hiff : ∀ v ∈ keys, numeralValue v.formatG14 = some (v.trunc : ℚ) ↔
      FitsG14 v.trunc.natAbs :=
    fun v hv => numeralValue_formatG14_iff (hkeys v hv).1 (hkeys v hv).2
  constructor
  · rintro ⟨hexact, _⟩ v hv
    exact (hiff v hv).mp (hexact v hv)
  · intro hfits
    have hexact : ∀ v ∈ keys, numeralValue v.formatG14 = some (v.trunc : ℚ) :=
      fun v hv => (hiff v hv).mpr (hfits v hv)
    refine ⟨hexact, fun v hv w hw hne => ?_⟩
    rw [hexact v hv, hexact w hw, Ne, Option.some_inj, Int.cast_inj]
    exact hne

/-- Two integers, one of them of 16 digits. -/
theorem dumpsIntegers_two :
    (∀ v ∈ [ofInt 7, ofInt 1200000000000000],
        v.isIntegral = true ∧ v.trunc.natAbs ≤ 2 ^ 53) ∧
      ∃ text : Binary64 → Bytes,
        (∀ v ∈ [ofInt 7, ofInt 1200000000000000], DumpsNumber .plain v (text v)) ∧
        (((∀ v ∈ [ofInt 7, ofInt 1200000000000000], numeralValue (text v) = some (v.trunc : ℚ)) ∧
            ∀ v ∈ [ofInt 7, ofInt 1200000000000000], ∀ w ∈ [ofInt 7, ofInt 1200000000000000],
              v.trunc ≠ w.trunc → numeralValue (text v) ≠ numeralValue (text w)) ↔
          ∀ v ∈ [ofInt 7, ofInt 1200000000000000], FitsG14 v.trunc.natAbs) := by
  have hkeys : ∀ v ∈ [ofInt 7, ofInt 1200000000000000],
      v.isIntegral = true ∧ v.trunc.natAbs ≤ 2 ^ 53 := by decide +kernel
  exact ⟨hkeys, dumpsIntegers_iff .plain [ofInt 7, ofInt 1200000000000000] hkeys⟩

/-- The keys `100000000000001` and `100000000000000` are printed as one key. -/
theorem dumpsNumber_merges :
    DumpsNumber .plain (ofInt 100000000000001) (bytesOf "1e+14") ∧
      DumpsNumber .plain (ofInt 100000000000000) (bytesOf "1e+14") ∧
      numeralValue (bytesOf "1e+14") = some 100000000000000 ∧
      (ofInt 100000000000001).trunc = 100000000000001 := by
  have hodd : (ofInt 100000000000001).formatG14 = bytesOf "1e+14" := by decide +kernel
  have heven : (ofInt 100000000000000).formatG14 = bytesOf "1e+14" := by decide +kernel
  refine ⟨?_, ?_, ?_, trunc_ofInt (by norm_num)⟩
  · rw [← hodd]
    exact dumpsNumber_formatG14 _
  · rw [← heven]
    exact dumpsNumber_formatG14 _
  · have hread : readNumeral (bytesOf "1e+14") = some ⟨false, [49], [], 14⟩ := by rfl
    have hdigit : digitsValue ([49] ++ []) = 1 := by decide
    rw [numeralValue, hread, Option.map_some, Numeral.value, hdigit]
    norm_num

end LuaBinaryTable
