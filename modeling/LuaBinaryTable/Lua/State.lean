import LuaBinaryTable.Lua.Table

/-!
# The Lua state as a C function sees it

A `LuaState` is the stack of the running C function, the heap of tables, and the `Thread` that the
function runs in: the global `table`, the slots of the stack's buffer, and the console.  The
functions below are the calls of the Lua 5.1 C API that the library makes, under their names
without the prefix `lua_`.  Stack indices are Lua's: `1, 2, …` count from the bottom of the
function's stack and `-1, -2, …` from its top.

A call that pushes a value does not look whether the buffer has a slot for it: that is left to
`lua_checkstack`, which the library never calls.  So a push always succeeds here, and `peak`,
which is not part of Lua, records the greatest height the stack has had.  Once the peak is beyond
the slots (`LuaState.Overrun`) the run has written behind the buffer, and nothing that the state
shows from there on says anything about the program.
-/

namespace LuaBinaryTable

/-- How a run of C code against a state ends: it returns, a Lua error escapes from it and leaves
the state as it stands, or the fuel of the model is used up while it still runs. -/
inductive Run (σ α : Type) where
  | returns (a : α)
  | raises (s : σ)
  | diverges

namespace Run

variable {σ α β : Type}

protected def bind : Run σ α → (α → Run σ β) → Run σ β
  | returns a, f => f a
  | raises s, _ => raises s
  | diverges, _ => diverges

instance : Monad (Run σ) where
  pure := returns
  bind := Run.bind

@[simp] theorem pure_eq (a : α) : (pure a : Run σ α) = returns a := rfl
@[simp] theorem returns_bind (a : α) (f : α → Run σ β) : (returns a >>= f) = f a := rfl
@[simp] theorem raises_bind (s : σ) (f : α → Run σ β) : (raises s >>= f) = raises s := rfl
@[simp] theorem diverges_bind (f : α → Run σ β) : (diverges >>= f) = diverges := rfl

/-- A sequence returns when both parts do. -/
theorem bind_eq_returns {x : Run σ α} {f : α → Run σ β} {b : β} :
    (x >>= f) = returns b ↔ ∃ a, x = returns a ∧ f a = returns b := by
  cases x <;> simp

end Run

/-- The sizes that `lua_createtable` can set memory aside for; for the others, such as a negative
one, it raises an error. -/
abbrev TableSizes := Int → Int → Bool

/-- What a C function finds around it: the value of the global `table`, the slots of the buffer of
the Lua stack, counted from the bottom of the function's stack, and the lines that are printed on
the console. -/
structure Thread where
  tableLib : LuaValue
  slots : Nat
  console : List Bytes

/-- The state of Lua.  A table reference is a position in the heap, which only grows. -/
structure LuaState where
  stack : List LuaValue
  heap : List LuaTable
  thread : Thread
  peak : Nat

/-- The state in which a C function is called, with the peak counted from there. -/
def LuaState.entry (stack : List LuaValue) (heap : List LuaTable) (thread : Thread) : LuaState :=
  { stack := stack, heap := heap, thread := thread, peak := stack.length }

/-- `BASIC_STACK_SIZE` and `EXTRA_STACK`, less the slot of the base level: the buffer of a fresh Lua
state, as a function that is called straight from C sees it. -/
def freshSlots : Nat := 44

/-- The thread of a fresh Lua state with a global `table`. -/
def Thread.fresh (tableLib : LuaValue) : Thread :=
  { tableLib := tableLib, slots := freshSlots, console := [] }

/-- `LUA_MINSTACK`: the free slots that every call of a C function is given. -/
def luaMinStack : Nat := 20

/-- The run has written behind the buffer of the Lua stack.  The buffer only grows, and no longer
once this has happened, so the greatest height tells. -/
def LuaState.Overrun (L : LuaState) : Prop := L.thread.slots < L.peak

instance (L : LuaState) : Decidable L.Overrun := inferInstanceAs (Decidable (_ < _))

/-- The slot of an absolute index, in a stack written from its top down. -/
def slot : List LuaValue → Nat → LuaValue
  | [], _ => .nil
  | v :: s, k => if k = s.length + 1 then v else slot s k

/-- The stack without the slot of an absolute index. -/
def removeSlot : List LuaValue → Nat → List LuaValue
  | [], _ => []
  | v :: s, k => if k = s.length + 1 then s else v :: removeSlot s k

/-- The absolute index that a stack index stands for. -/
def absIndex (height : Nat) (idx : Int) : Nat :=
  if 0 < idx then idx.toNat else (height + idx + 1).toNat

/-- The value without metamethods at a key of a value, `nil` where there is none. -/
def rawField (heap : List LuaTable) : LuaValue → LuaValue → LuaValue
  | .table ref, k => (heap[ref]?).elim .nil (·.get k)
  | _, _ => .nil

/-- The heap with a table changed. -/
def updateTable (heap : List LuaTable) (f : LuaTable → LuaTable) : LuaValue → List LuaTable
  | .table ref => heap.modify ref f
  | _ => heap

namespace LuaState

/-! ### Stack manipulation -/

def gettop (L : LuaState) : Nat := L.stack.length

/-- `index2adr`: the value at a stack index. -/
def index2adr (L : LuaState) (idx : Int) : LuaValue := slot L.stack (absIndex L.gettop idx)

/-- One more value on the stack, with the peak moved along.  `lapi.c` checks the slots in an
assertion only, so nothing stops the stack at the end of its buffer. -/
def push (v : LuaValue) (L : LuaState) : LuaState :=
  { L with stack := v :: L.stack, peak := max L.peak (L.stack.length + 1) }

def pop (n : Nat) (L : LuaState) : LuaState := { L with stack := L.stack.drop n }

/-- `lua_settop` of a nonnegative index. -/
def settop (n : Nat) (L : LuaState) : LuaState :=
  { L with
    stack := List.replicate (n - L.gettop) .nil ++ L.stack.drop (L.gettop - n)
    peak := max L.peak n }

def pushvalue (idx : Int) (L : LuaState) : LuaState := L.push (L.index2adr idx)

/-- The values above move down by a slot. -/
def remove (idx : Int) (L : LuaState) : LuaState :=
  { L with stack := removeSlot L.stack (absIndex L.gettop idx) }

def pushnil (L : LuaState) : LuaState := L.push .nil

def pushnumber (n : Binary64) (L : LuaState) : LuaState := L.push (.number n)

/-- The integer as a number; `lua_Integer` has 64 bits. -/
def pushinteger (i : Int) (L : LuaState) : LuaState := L.push (integer i)

def pushboolean (b : Bool) (L : LuaState) : LuaState := L.push (.boolean b)

def pushlstring (s : Bytes) (L : LuaState) : LuaState := L.push (.string s)

/-! ### Access to values -/

/-- `lua_objlen` of a string or a table. -/
def objlen (L : LuaState) (idx : Int) : Nat :=
  match L.index2adr idx with
  | .string s => s.length
  | .table ref => (L.heap[ref]?).elim 0 (·.border)
  | _ => 0

/-- `lua_tointeger` of a number. -/
def tointeger (L : LuaState) (idx : Int) : Int :=
  match L.index2adr idx with
  | .number n => n.trunc
  | _ => 0

/-- `lua_tolstring` of a string. -/
def tolstring (L : LuaState) (idx : Int) : Bytes :=
  match L.index2adr idx with
  | .string s => s
  | _ => []

/-! ### Tables -/

/-- A new empty table. -/
def newtable (L : LuaState) : LuaState :=
  { L.push (.table L.heap.length) with heap := L.heap ++ [LuaTable.empty] }

/-- A new empty table with memory set aside for so many elements and other entries. -/
def createtable (sizes : TableSizes) (narr nrec : Int) (L : LuaState) : Run LuaState LuaState :=
  if sizes narr nrec then .returns L.newtable else .raises L

/-- The key on the top is replaced by the value under it in the table at `idx`. -/
def rawget (idx : Int) (L : LuaState) : LuaState :=
  match L.stack with
  | [] => L
  | k :: s => { L with stack := rawField L.heap (L.index2adr idx) k :: s }

/-- The element `n` of the table at `idx` is pushed. -/
def rawgeti (idx : Int) (n : Int) (L : LuaState) : LuaState :=
  L.push (rawField L.heap (L.index2adr idx) (integer n))

/-- The value on the top goes under the key below it into the table at `idx`; both are popped.
A key that is `nil` or `NaN` raises an error. -/
def rawset (idx : Int) (L : LuaState) : Run LuaState LuaState :=
  match L.stack with
  | v :: k :: s =>
    if k.isKey then
      .returns { L with stack := s, heap := updateTable L.heap (·.set k v) (L.index2adr idx) }
    else .raises L
  | _ => .returns L

/-- The value on the top goes under `n` into the table at `idx` and is popped. -/
def rawseti (idx : Int) (n : Int) (L : LuaState) : LuaState :=
  match L.stack with
  | v :: s =>
    { L with stack := s, heap := updateTable L.heap (·.set (integer n) v) (L.index2adr idx) }
  | _ => L

/-- The key on the top is replaced by the next key of the table at `idx` and its value, or popped
where there is none. -/
def next (idx : Int) (L : LuaState) : Bool × LuaState :=
  match L.stack with
  | [] => (false, L)
  | k :: s =>
    match L.index2adr idx with
    | .table ref =>
      match (L.heap[ref]?).bind (·.next k) with
      | some e =>
        (true, { L with stack := e.2 :: e.1 :: s, peak := max L.peak (s.length + 2) })
      | none => (false, { L with stack := s })
    | _ => (false, { L with stack := s })

/-- `lua_getglobal(L, "table")`. -/
def getglobalTable (L : LuaState) : LuaState := L.push L.thread.tableLib

/-- `lua_getfield` of a table that has no metatable. -/
def getfield (idx : Int) (name : String) (L : LuaState) : LuaState :=
  L.push (rawField L.heap (L.index2adr idx) (.string (bytesOf name)))

end LuaState

/-! ### Heap lemmas -/

/-- A change of the newest table. -/
theorem modify_append_length (h : List LuaTable) (t : LuaTable) (f : LuaTable → LuaTable) :
    (h ++ [t]).modify h.length f = h ++ [f t] := by
  induction h with
  | nil => rfl
  | cons t' h ih =>
    rw [List.cons_append, List.length_cons, List.modify_succ_cons, ih, List.cons_append]

/-! ### Stack lemmas -/

theorem slot_of_le {v : LuaValue} {s : List LuaValue} {k : Nat} (h : k ≤ s.length) :
    slot (v :: s) k = slot s k := by
  rw [slot, if_neg (by omega)]

theorem slot_top (v : LuaValue) (s : List LuaValue) : slot (v :: s) (s.length + 1) = v :=
  if_pos rfl

theorem slot_append {extra s : List LuaValue} {k : Nat} (h : k ≤ s.length) :
    slot (extra ++ s) k = slot s k := by
  induction extra with
  | nil => rfl
  | cons v extra ih => rw [List.cons_append, slot_of_le (by simp; omega), ih]

theorem removeSlot_append {extra s : List LuaValue} {k : Nat} (h : k ≤ s.length) :
    removeSlot (extra ++ s) k = extra ++ removeSlot s k := by
  induction extra with
  | nil => rfl
  | cons v extra ih =>
    rw [List.cons_append, removeSlot, if_neg (by simp; omega), ih, List.cons_append]

theorem removeSlot_top (v : LuaValue) (s : List LuaValue) :
    removeSlot (v :: s) (s.length + 1) = s := by
  rw [removeSlot, if_pos rfl]

@[simp] theorem absIndex_natCast {height k : Nat} (h : 0 < k) : absIndex height k = k := by
  simp [absIndex, h]

namespace LuaState

variable (L : LuaState)

@[simp] theorem gettop_push (v : LuaValue) : (L.push v).gettop = L.gettop + 1 := rfl

theorem index2adr_neg_one {v : LuaValue} {s : List LuaValue} (h : L.stack = v :: s) :
    L.index2adr (-1) = v := by
  unfold index2adr absIndex gettop
  rw [h, if_neg (by decide), slot, if_pos (by simp only [List.length_cons]; omega)]

theorem index2adr_neg_two {v w : LuaValue} {s : List LuaValue} (h : L.stack = v :: w :: s) :
    L.index2adr (-2) = w := by
  unfold index2adr absIndex gettop
  rw [h, if_neg (by decide), slot, if_neg (by simp only [List.length_cons]; omega), slot,
    if_pos (by simp only [List.length_cons]; omega)]

theorem index2adr_neg_three {u v w : LuaValue} {s : List LuaValue}
    (h : L.stack = u :: v :: w :: s) : L.index2adr (-3) = w := by
  unfold index2adr absIndex gettop
  rw [h, if_neg (by decide), slot, if_neg (by simp only [List.length_cons]; omega), slot,
    if_neg (by simp only [List.length_cons]; omega), slot,
    if_pos (by simp only [List.length_cons]; omega)]

theorem settop_append {L : LuaState} (extra : List LuaValue) {s : List LuaValue}
    (h : L.stack = extra ++ s) :
    (L.settop s.length).stack = s := by
  unfold settop gettop
  rw [h]
  simp

/-! ### The operations on a state given by its fields -/

section

variable (S : List LuaValue) (h : List LuaTable) (T : Thread) (p : Nat)

theorem push_mk (v : LuaValue) :
    push v ⟨S, h, T, p⟩ = ⟨v :: S, h, T, max p (S.length + 1)⟩ := rfl

theorem newtable_mk : newtable ⟨S, h, T, p⟩ =
    ⟨.table h.length :: S, h ++ [LuaTable.empty], T, max p (S.length + 1)⟩ := rfl

theorem index2adr_top (v : LuaValue) : index2adr ⟨v :: S, h, T, p⟩ (-1) = v :=
  index2adr_neg_one ⟨v :: S, h, T, p⟩ rfl

theorem index2adr_second (v w : LuaValue) : index2adr ⟨v :: w :: S, h, T, p⟩ (-2) = w :=
  index2adr_neg_two ⟨v :: w :: S, h, T, p⟩ rfl

theorem index2adr_third (u v w : LuaValue) : index2adr ⟨u :: v :: w :: S, h, T, p⟩ (-3) = w :=
  index2adr_neg_three ⟨u :: v :: w :: S, h, T, p⟩ rfl

/-- An absolute index is a slot. -/
theorem index2adr_mk {i : Nat} (hi : 0 < i) : index2adr ⟨S, h, T, p⟩ i = slot S i := by
  rw [index2adr, absIndex_natCast hi]

theorem rawgeti_mk {i : Nat} (hi : 0 < i) (n : Int) : rawgeti i n ⟨S, h, T, p⟩ =
    ⟨rawField h (slot S i) (integer n) :: S, h, T, max p (S.length + 1)⟩ := by
  rw [rawgeti, index2adr_mk _ _ _ _ hi]
  rfl

theorem rawget_mk {i : Nat} (hi : 0 < i) (hle : i ≤ S.length) (k : LuaValue) :
    rawget i ⟨k :: S, h, T, p⟩ = ⟨rawField h (slot S i) k :: S, h, T, p⟩ := by
  simp only [rawget, index2adr_mk _ _ _ _ hi, slot_of_le hle]

/-- Storing into the table below the value on the top. -/
theorem rawseti_mk (v : LuaValue) (ref : Nat) (n : Int) :
    rawseti (-2) n ⟨v :: .table ref :: S, h, T, p⟩ =
      ⟨.table ref :: S, h.modify ref (·.set (integer n) v), T, p⟩ := by
  simp only [rawseti, index2adr_second, updateTable]

/-- Storing into the table below the value on the top and another one. -/
theorem rawseti_third_mk (v w : LuaValue) (ref : Nat) (n : Int) :
    rawseti (-3) n ⟨v :: w :: .table ref :: S, h, T, p⟩ =
      ⟨w :: .table ref :: S, h.modify ref (·.set (integer n) v), T, p⟩ := by
  simp only [rawseti, index2adr_third, updateTable]

/-- Storing into the table below a key and a value. -/
theorem rawset_mk (k v : LuaValue) (ref : Nat) :
    rawset (-3) ⟨v :: k :: .table ref :: S, h, T, p⟩ =
      if k.isKey then .returns ⟨.table ref :: S, h.modify ref (·.set k v), T, p⟩
      else .raises ⟨v :: k :: .table ref :: S, h, T, p⟩ := by
  simp only [rawset, index2adr_third, updateTable]

end

end LuaState

end LuaBinaryTable
