import LuaBinaryTable.Document.Doc
import LuaBinaryTable.Writer.WriteValue

/-!
# Laying a value out

`layout` is what `writeValue` makes of a value, apart from the bytes: which tag each number gets,
which tables are written as arrays, and the order of the keys of the others.
-/

namespace LuaBinaryTable

/-- `writeTable` takes the table for an array. -/
def LuaTable.IsArray (t : LuaTable) : Prop :=
  t.entries.length ≠ 0 ∧ t.entries.length = t.border

instance (t : LuaTable) : Decidable t.IsArray := inferInstanceAs (Decidable (_ ∧ _))

/-- The keys in the order in which the sort leaves them, unless it raises. -/
def LuaTable.sortedKeys (env : Env) (t : LuaTable) : Option (List LuaValue) :=
  match (env.sort t.keys).run (sortComp env) with
  | .ok ks => some ks
  | .error _ => none

/-- Keys and their values, alternately. -/
def LuaTable.alternate (t : LuaTable) (ks : List LuaValue) : List LuaValue :=
  ks.flatMap fun k => [k, t.get k]

/-- What `writeTable` writes of a table, from what is written of its values. -/
def layoutTable (env : Env) (layout : LuaValue → Doc) (t : LuaTable) : Doc :=
  if t.entries.length = 0 then .emptyTable
  else if t.entries.length = t.border then
    .array t.entries.length ((t.elements 1 t.entries.length).map layout)
  else
    .table t.entries.length (match t.sortedKeys env with
      | some ks => (t.alternate ks).map layout
      | none => [.stop .unsortable])

/-- What `writeValue` writes of a value. -/
def layout (env : Env) (h : List LuaTable) : Nat → LuaValue → Doc
  | 0, _ => .stop .deep
  | _ + 1, .nil => .nil
  | _ + 1, .boolean b => .boolean b
  | _ + 1, .number v =>
    if v.equal v.round then .integer (castInt64 env v.round) else .double v
  | _ + 1, .string s => .string s
  | fuel + 1, .table ref =>
    match h[ref]? with
    | some t => layoutTable env (layout env h fuel) t
    | none => .emptyTable
  | _ + 1, .lightuserdata _ | _ + 1, .function _ | _ + 1, .userdata _ | _ + 1, .thread _ =>
    .stop .unsupported

end LuaBinaryTable
