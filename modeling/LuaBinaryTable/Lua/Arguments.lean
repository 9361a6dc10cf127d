import LuaBinaryTable.Binary64.Format
import LuaBinaryTable.Lua.State

/-!
# The arguments of a C function

The checks of `lauxlib.c` that the library makes of its arguments, and the errors they raise.  An
error leaves its message on the top of the stack.
-/

namespace LuaBinaryTable

/-- What the error messages of a C function tell of its call. -/
structure CallSite where
  /-- `luaL_where(L, 1)`: the place of the call, empty where no Lua code makes it. -/
  position : Bytes
  /-- The name that the call has for the function, if it has one. -/
  name : Option Bytes
  isMethod : Bool

/-- `lua_typename`. -/
def LuaType.typename : LuaType → Bytes
  | .nil => bytesOf "nil"
  | .boolean => bytesOf "boolean"
  | .lightuserdata => bytesOf "userdata"
  | .number => bytesOf "number"
  | .string => bytesOf "string"
  | .table => bytesOf "table"
  | .function => bytesOf "function"
  | .userdata => bytesOf "userdata"
  | .thread => bytesOf "thread"

/-- The stack with another value in the slot of an absolute index. -/
def setSlot : List LuaValue → Nat → LuaValue → List LuaValue
  | [], _, _ => []
  | v :: s, k, w => if k = s.length + 1 then w :: s else v :: setSlot s k w

namespace LuaState

variable {α : Type}

/-- `luaL_error`, with the message formatted. -/
def error (site : CallSite) (message : Bytes) (L : LuaState) : Run LuaState α :=
  .raises (L.pushlstring (site.position ++ message))

/-- The message of `luaL_argerror`. -/
def argMessage (site : CallSite) (narg : Nat) (extramsg : Bytes) : Bytes :=
  -- do not count `self`
  let narg := if site.isMethod then narg - 1 else narg
  let name := site.name.getD (bytesOf "?")
  if site.isMethod ∧ narg = 0 then
    bytesOf "calling '" ++ name ++ bytesOf "' on bad self (" ++ extramsg ++ bytesOf ")"
  else
    bytesOf "bad argument #" ++ bytesOf (toString narg) ++ bytesOf " to '" ++ name ++
      bytesOf "' (" ++ extramsg ++ bytesOf ")"

/-- `luaL_argerror`: a bad argument by its number and the name of the function. -/
def argerror (site : CallSite) (narg : Nat) (extramsg : Bytes) (L : LuaState) : Run LuaState α :=
  L.error site (argMessage site narg extramsg)

/-- `luaL_typename` of an argument. -/
def typenameAt (narg : Nat) (L : LuaState) : Bytes :=
  if narg ≤ L.gettop then (L.index2adr narg).type.typename else bytesOf "no value"

/-- The message of `luaL_typerror`. -/
def typeMessage (narg : Nat) (tname : LuaType) (L : LuaState) : Bytes :=
  tname.typename ++ bytesOf " expected, got " ++ L.typenameAt narg

/-- `luaL_typerror`, which pushes its text before the message is made of it. -/
def typerror (site : CallSite) (narg : Nat) (tname : LuaType) (L : LuaState) : Run LuaState α :=
  (L.pushlstring (L.typeMessage narg tname)).argerror site narg (L.typeMessage narg tname)

/-- `luaL_checklstring`: a number becomes a string in its slot. -/
def checklstring (site : CallSite) (narg : Nat) (L : LuaState) : Run LuaState (Bytes × LuaState) :=
  match L.index2adr narg with
  | .string s => .returns (s, L)
  | .number n =>
    .returns (n.formatG14, { L with stack := setSlot L.stack narg (.string n.formatG14) })
  | _ => L.typerror site narg .string

/-- `lua_tonumber`, where the value has one; `str2d` is `luaO_str2d`. -/
def tonumber? (str2d : Bytes → Option Binary64) (idx : Int) (L : LuaState) : Option Binary64 :=
  match L.index2adr idx with
  | .number n => some n
  | .string s => str2d s
  | _ => none

/-- `luaL_checkinteger`; `cast` is the conversion to `lua_Integer`. -/
def checkinteger (cast : Binary64 → Int) (str2d : Bytes → Option Binary64) (site : CallSite)
    (narg : Nat) (L : LuaState) : Run LuaState Int :=
  match L.tonumber? str2d narg with
  | some n => .returns (cast n)
  | none => L.typerror site narg .number

end LuaState

/-- The text of a value that counts as a string. -/
def LuaValue.text? : LuaValue → Option Bytes
  | .string s => some s
  | .number n => some n.formatG14
  | _ => none

/-! ### Slots -/

@[simp] theorem length_setSlot : ∀ (S : List LuaValue) (k : Nat) (w : LuaValue),
    (setSlot S k w).length = S.length
  | [], _, _ => rfl
  | v :: s, k, w => by
    unfold setSlot
    split_ifs
    · rfl
    · rw [List.length_cons, List.length_cons, length_setSlot s k w]

/-- The other slots keep their values. -/
theorem slot_setSlot_of_ne : ∀ {S : List LuaValue} {j k : Nat} (w : LuaValue), j ≠ k →
    slot (setSlot S k w) j = slot S j
  | [], _, _, _, _ => rfl
  | v :: s, j, k, w, hne => by
    unfold setSlot
    by_cases hk : k = s.length + 1
    · rw [if_pos hk, slot, slot, if_neg (by omega), if_neg (by omega)]
    · rw [if_neg hk, slot, slot, length_setSlot, slot_setSlot_of_ne w hne]

/-- A slot that keeps its value. -/
theorem setSlot_slot : ∀ (S : List LuaValue) (k : Nat), setSlot S k (slot S k) = S
  | [], _ => rfl
  | v :: s, k => by
    unfold setSlot
    by_cases hk : k = s.length + 1
    · rw [if_pos hk, slot, if_pos hk]
    · rw [if_neg hk, slot, if_neg hk, setSlot_slot s k]

theorem slot_setSlot : ∀ {S : List LuaValue} {k : Nat} (w : LuaValue), 0 < k → k ≤ S.length →
    slot (setSlot S k w) k = w
  | [], k, _, hk, hle => absurd (hk.trans_le hle) (Nat.lt_irrefl 0)
  | v :: s, k, w, hk, hle => by
    unfold setSlot
    by_cases hs : k = s.length + 1
    · rw [if_pos hs, slot, if_pos hs]
    · rw [List.length_cons] at hle
      rw [if_neg hs, slot, length_setSlot, if_neg hs, slot_setSlot w hk (by omega)]

/-- The arguments of a call, in the order in which they are given. -/
theorem slot_reverse : ∀ (args : List LuaValue) (i : Nat),
    slot args.reverse (i + 1) = args[i]?.getD .nil := by
  intro args
  induction args using List.reverseRecOn with
  | nil =>
    intro i
    rfl
  | append_singleton args v ih =>
    intro i
    rw [List.reverse_append, List.reverse_singleton, List.singleton_append, slot,
      List.length_reverse]
    by_cases hi : i = args.length
    · rw [if_pos (by omega), hi, List.getElem?_concat_length]
      rfl
    · rw [if_neg (by omega), ih]
      rcases Nat.lt_or_gt_of_ne hi with hlt | hgt
      · rw [List.getElem?_append_left hlt]
      · rw [List.getElem?_eq_none (by omega), List.getElem?_eq_none (by simp; omega)]

/-! ### The checks -/

section

variable {L : LuaState} {narg : Nat} (site : CallSite)

/-- An argument with a text is left in its slot as a string. -/
theorem checklstring_of_text (hpos : 0 < narg) {text : Bytes}
    (ht : (slot L.stack narg).text? = some text) :
    L.checklstring site narg =
      .returns (text, { L with stack := setSlot L.stack narg (.string text) }) := by
  have hadr : L.index2adr narg = slot L.stack narg := by
    rw [LuaState.index2adr, absIndex_natCast hpos]
  unfold LuaState.checklstring
  rw [hadr]
  cases hv : slot L.stack narg with
  | string s =>
    rw [hv] at ht
    cases ht
    have hself : setSlot L.stack narg (.string text) = L.stack := by rw [← hv, setSlot_slot]
    rw [hself]
  | number n =>
    rw [hv] at ht
    cases ht
    rfl
  | _ =>
    rw [hv] at ht
    cases ht

/-- For any other argument the error names its number and its type. -/
theorem checklstring_of_none (hpos : 0 < narg) (ht : (slot L.stack narg).text? = none) :
    L.checklstring site narg = .raises
      ((L.pushlstring (L.typeMessage narg .string)).pushlstring
        (site.position ++ LuaState.argMessage site narg (L.typeMessage narg .string))) := by
  have hadr : L.index2adr narg = slot L.stack narg := by
    rw [LuaState.index2adr, absIndex_natCast hpos]
  unfold LuaState.checklstring
  rw [hadr]
  cases hv : slot L.stack narg with
  | string s =>
    rw [hv] at ht
    cases ht
  | number n =>
    rw [hv] at ht
    cases ht
  | _ => rfl

end

end LuaBinaryTable
