import LuaBinaryTable.Binary64.Equiv.Units
import LuaBinaryTable.Bytes.LittleEndian

/-!
# Lua values

The values of Lua 5.1, as the slots of a Lua stack or table hold them: scalars by value, tables by
reference into the heap (`Lua/State.lean`), and functions, userdata and threads by identity.
Strings are byte strings.
-/

namespace LuaBinaryTable

/-- The type tags of Lua values. -/
inductive LuaType where
  | nil | boolean | lightuserdata | number | string | table | function | userdata | thread
  deriving DecidableEq

/-- A Lua value.  A table is a place of the heap; functions, userdata and threads are known by
their identity alone. -/
inductive LuaValue where
  | nil
  | boolean (b : Bool)
  | lightuserdata (p : Nat)
  | number (n : Binary64)
  | string (s : Bytes)
  | table (ref : Nat)
  | function (id : Nat)
  | userdata (id : Nat)
  | thread (id : Nat)
  deriving DecidableEq

namespace LuaValue

def type : LuaValue → LuaType
  | nil => .nil
  | boolean _ => .boolean
  | lightuserdata _ => .lightuserdata
  | number _ => .number
  | string _ => .string
  | table _ => .table
  | function _ => .function
  | userdata _ => .userdata
  | thread _ => .thread

/-- Every value but `nil` and `false` is true in a condition. -/
def truthy : LuaValue → Bool
  | nil => false
  | boolean b => b
  | _ => true

/-- Equality without metamethods (`luaO_rawequalObj`): numbers by value, so that the zeros are
equal and a `NaN` is not equal to itself, strings by content, the rest by identity. -/
def rawEqual : LuaValue → LuaValue → Bool
  | number x, number y => x.equal y
  | v, w => decide (v = w)

/-- A table may have the value as a key: it is neither `nil` nor a `NaN`. -/
def isKey : LuaValue → Bool
  | nil => false
  | number n => !n.isNaN
  | _ => true

/-! ### Raw equality is an equivalence on keys -/

@[simp] theorem isKey_string (s : Bytes) : (string s).isKey = true := rfl

@[simp] theorem isKey_nil : isKey nil = false := rfl

theorem rawEqual_number (x y : Binary64) : rawEqual (number x) (number y) = x.equal y := rfl

/-- Outside the numbers raw equality is identity. -/
theorem rawEqual_iff {v w : LuaValue} :
    v.rawEqual w = true ↔
      (∃ x y, v = number x ∧ w = number y ∧ x.equal y = true) ∨
        ((∀ n, v ≠ number n) ∧ v = w) := by
  unfold rawEqual
  split
  · simp
  · rename_i hne
    rw [decide_eq_true_eq]
    constructor
    · rintro rfl
      exact Or.inr ⟨fun n hn => hne n n hn hn, rfl⟩
    · rintro (⟨x, y, hx, hy, _⟩ | ⟨_, h⟩)
      · exact (hne x y hx hy).elim
      · exact h

theorem rawEqual_self {k : LuaValue} (h : k.isKey = true) : k.rawEqual k = true := by
  cases k with
  | number n => exact Binary64.equal_self (by simpa [isKey] using h)
  | _ => simp [rawEqual]

theorem rawEqual_symm {v w : LuaValue} (h : v.rawEqual w = true) : w.rawEqual v = true := by
  rcases rawEqual_iff.mp h with ⟨x, y, rfl, rfl, hxy⟩ | ⟨hv, rfl⟩
  · rw [rawEqual_number, Binary64.equal_comm]
    exact hxy
  · exact h

theorem rawEqual_comm (v w : LuaValue) : v.rawEqual w = w.rawEqual v :=
  Bool.eq_iff_iff.mpr ⟨rawEqual_symm, rawEqual_symm⟩

theorem rawEqual_trans {u v w : LuaValue} (huv : u.rawEqual v = true) (hvw : v.rawEqual w = true) :
    u.rawEqual w = true := by
  rcases rawEqual_iff.mp hvw with ⟨y, z, rfl, rfl, hyz⟩ | ⟨_, rfl⟩
  · rcases rawEqual_iff.mp huv with ⟨x, y', rfl, hy, hxy⟩ | ⟨hu, rfl⟩
    · cases hy
      exact Binary64.equal_trans hxy hyz
    · exact absurd rfl (hu y)
  · exact huv

end LuaValue

end LuaBinaryTable
