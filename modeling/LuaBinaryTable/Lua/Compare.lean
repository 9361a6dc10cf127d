import LuaBinaryTable.Lua.Value

/-!
# Comparison of Lua values

`lua_lessthan` of `lvm.c`: numbers by value and strings by `l_strcmp`, which compares with
`strcoll` the pieces between zero bytes.  The locale is the C locale, where `strcoll` is `strcmp`.
Other values are compared by their metamethod `__lt`.
-/

namespace LuaBinaryTable

/-- `strcmp` of the C strings that start the two byte strings: each ends at its first zero byte, or
at the zero byte that Lua keeps behind every string. -/
def strcmp : Bytes → Bytes → Ordering
  | [], [] => .eq
  | [], b :: _ => if b = 0 then .eq else .lt
  | a :: _, [] => if a = 0 then .eq else .gt
  | a :: as, b :: bs =>
    if a = 0 then (if b = 0 then .eq else .lt)
    else if b = 0 then .gt
    else if a < b then .lt
    else if b < a then .gt
    else strcmp as bs

/-- The loop of `l_strcmp`, which passes a zero byte in each round. -/
def lStrcmpLoop : Nat → Bytes → Bytes → Ordering
  | 0, _, _ => .eq
  | fuel + 1, l, r =>
    match strcmp l r with
    | .eq =>
      let len := strlen l
      if len = r.length then (if len = l.length then .eq else .gt)
      else if len = l.length then .lt
      else lStrcmpLoop fuel (l.drop (len + 1)) (r.drop (len + 1))
    | temp => temp

def lStrcmp (l r : Bytes) : Ordering := lStrcmpLoop (l.length + 1) l r

/-- `luaV_lessthan`.  `orderTM` is `call_orderTM` for `__lt`; `none` is the error of comparing
values that cannot be ordered. -/
def luaLessThan (orderTM : LuaValue → LuaValue → Option Bool) (l r : LuaValue) : Option Bool :=
  if l.type ≠ r.type then none
  else
    match l, r with
    | .number x, .number y => some (x.less y)
    | .string s, .string t => some (lStrcmp s t == .lt)
    | _, _ => orderTM l r

end LuaBinaryTable
