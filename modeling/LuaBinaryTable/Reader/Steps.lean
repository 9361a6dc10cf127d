import LuaBinaryTable.Reader.StringTable
import Mathlib.Logic.Relation

/-!
# The decoder as a sequence of steps

What a run of `parserValue` reads and records, apart from the Lua values that it builds: a sequence
of steps of the cursor and the trace, which may end in a step that makes the run fail.  A property
of the trace is proved of each step, and then holds of every run (`Reader/Equiv/Steps.lean`).
-/

namespace LuaBinaryTable

namespace Reader

/-- How far a run has come. -/
structure Progress where
  reader : BinaryReader
  trace : List ParseEvent

/-- A step that does not end the run, with the pool table `t` of `size` strings. -/
inductive ParseStep (size : Nat) (t : LuaTable) : Progress → Progress → Prop
  /-- A value starts with the byte at the cursor. -/
  | tag (r : BinaryReader) (tr : List ParseEvent) (h : r.p < r.data.length) :
      ParseStep size t ⟨r, tr⟩ ⟨(r.readNumber 1).2, .value r.p :: tr⟩
  | number (r : BinaryReader) (tr : List ParseEvent) (w : Nat) :
      ParseStep size t ⟨r, tr⟩ ⟨(r.readNumber w).2, tr⟩
  | createtable (r : BinaryReader) (tr : List ParseEvent) (count : Nat) (h : count < 2 ^ 32) :
      ParseStep size t ⟨r, tr⟩ ⟨r, .createtable count (toInt32 count) r.p :: tr⟩
  | string (r : BinaryReader) (tr : List ParseEvent) (i : Nat) (h : i ≤ size) :
      ParseStep size t ⟨r, tr⟩ ⟨r, .string i (some (t.get (integer (toInt32 i)))) :: tr⟩

/-- A step with which a run fails. -/
inductive ParseStop (size : Nat) : Progress → Progress → Prop
  /-- No value starts with the byte at the cursor, or there is none. -/
  | tag (r : BinaryReader) (tr : List ParseEvent) :
      ParseStop size ⟨r, tr⟩ ⟨(r.readNumber 1).2, .value r.p :: tr⟩
  | string (r : BinaryReader) (tr : List ParseEvent) (i : Nat) (h : size < i) :
      ParseStop size ⟨r, tr⟩ ⟨r, .string i none :: tr⟩

/-- Any number of steps. -/
abbrev ParseSteps (size : Nat) (t : LuaTable) : Progress → Progress → Prop :=
  Relation.ReflTransGen (ParseStep size t)

/-- How far a state has come. -/
def progress (s : ParseState) : Progress := ⟨s.reader, s.trace⟩

end Reader

end LuaBinaryTable
