import LuaBinaryTable.Source.ReadString
import LuaBinaryTable.Writer.DumpValue

/-!
# Strings in a dump

`dumpValue` puts the bytes of a string between quotes as they are.  A reader of Lua finds the string
again, whatever follows, exactly where all of its bytes are plain (`dumpValue_string_iff`).
-/

namespace LuaBinaryTable

open LuaState

variable {env : Env} {L : LuaState} {idx : Int} {s : Bytes}

theorem dumpValue_string (hs : L.index2adr idx = .string s) (fuel : Nat) (indent maxIndenty : Int)
    (stream : BinaryWriter) :
    dumpValue env (fuel + 1) idx indent maxIndenty L stream =
      .returns (L, ((stream.writeChar 34).writeBytes s).writeChar 34) := by
  rw [dumpValue, hs]
  rfl

/-- Wherever a string is printed, its text is a literal that denotes it, whatever text follows,
exactly where the string has no quote, no backslash and no line break. -/
theorem dumpValue_string_iff (hs : L.index2adr idx = .string s) (fuel : Nat)
    (indent maxIndenty : Int) (stream : BinaryWriter) :
    ∃ literal stream',
      dumpValue env (fuel + 1) idx indent maxIndenty L stream = .returns (L, stream') ∧
        stream'.data = stream.data ++ literal ∧
        ∀ rest, readString (literal ++ rest) = some (s, rest) ↔ ∀ c ∈ s, Plain 34 c := by
  refine ⟨34 :: s ++ [34], _, dumpValue_string hs fuel indent maxIndenty stream, ?_, ?_⟩
  · simp only [BinaryWriter.data_writeChar, BinaryWriter.data_writeBytes, List.append_assoc,
      List.cons_append, List.nil_append]
  · intro rest
    exact readString_quoted_iff s rest

/-- The text of `ab`. -/
theorem dumpValue_string_ab :
    ∃ literal stream',
      dumpValue .plain 1 (-1) 1 0 (.entry [.string [97, 98]] [] (.fresh .nil)) .empty =
          .returns (.entry [.string [97, 98]] [] (.fresh .nil), stream') ∧
        stream'.data = [] ++ literal ∧
        ∀ rest, readString (literal ++ rest) = some ([97, 98], rest) ↔
          ∀ c ∈ ([97, 98] : Bytes), Plain 34 c :=
  @dumpValue_string_iff .plain (.entry [.string [97, 98]] [] (.fresh .nil)) (-1) [97, 98] rfl 0 1 0
    .empty

/-- The text of a quote is a literal for the empty string, with a quote left over. -/
theorem dumpValue_quote :
    ∃ stream',
      dumpValue .plain 1 (-1) 1 0 (.entry [.string [34]] [] (.fresh .nil)) .empty =
          .returns (.entry [.string [34]] [] (.fresh .nil), stream') ∧
        readString stream'.data = some ([], [34]) :=
  ⟨_, rfl, by decide⟩

end LuaBinaryTable
