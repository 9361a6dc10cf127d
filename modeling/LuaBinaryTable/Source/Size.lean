import LuaBinaryTable.Source.Parser

/-!
# The size of expressions

The Lua compiler has limits on the depth of nested constructors, for its C stack and for the
registers, and on the number of constants.
-/

namespace LuaBinaryTable

mutual

/-- How deep constructors are nested. -/
def Exp.depth : Exp → Nat
  | .table fields => fields.depth + 1
  | _ => 0

def Fields.depth : Fields → Nat
  | .nil => 0
  | .cons key value rest => max (max key.depth value.depth) rest.depth

end

mutual

/-- The number of expressions in an expression, itself included. -/
def Exp.size : Exp → Nat
  | .table fields => fields.size + 1
  | _ => 1

def Fields.size : Fields → Nat
  | .nil => 0
  | .cons key value rest => key.size + value.size + rest.size

end

/-- An expression that the compiler has room for: a level takes one C call and at most two of the
250 registers, and an expression at most one of the `2^18` constants. -/
def Exp.Fits (e : Exp) : Prop := e.depth ≤ 100 ∧ e.size ≤ 2 ^ 17

end LuaBinaryTable
