import LuaBinaryTable.Document.Doc
import LuaBinaryTable.Reader.StringTable

/-!
# The Lua value of a document

`materialise` builds the value of a complete document in a heap, the tables in the order in which
the decoder creates them.  `outcome` and `slots` say how the decoder fares on a document that may
break off, or that asks Lua for something it refuses: a table size, or `nil` or a `NaN` as a key.
-/

namespace LuaBinaryTable

/-- How a run of the decoder on a document ends. -/
inductive Outcome where
  | complete | fails | raises | diverges
  deriving DecidableEq

namespace Outcome

/-- The outcome of two parts in order. -/
def andThen : Outcome → Outcome → Outcome
  | complete, o => o
  | o, _ => o

@[simp] theorem complete_andThen (o : Outcome) : complete.andThen o = o := rfl

theorem andThen_eq_complete {o o' : Outcome} :
    o.andThen o' = complete ↔ o = complete ∧ o' = complete := by
  cases o <;> simp [andThen]

end Outcome

def Stop.outcome : Stop → Outcome
  | .deep => .diverges
  | _ => .fails

namespace Doc

mutual

/-- The value, and the heap with the tables it needs. -/
def materialise : Doc → List LuaTable → LuaValue × List LuaTable
  | nil, h => (.nil, h)
  | boolean b, h => (.boolean b, h)
  | integer i, h => (LuaBinaryTable.integer i, h)
  | double x, h => (.number x, h)
  | string s, h => (.string s, h)
  | emptyTable, h => (.table h.length, h ++ [LuaTable.empty])
  | array _ items, h => (.table h.length, fillArray h.length items 0 (h ++ [LuaTable.empty]))
  | table _ items, h => (.table h.length, fillTable h.length items (h ++ [LuaTable.empty]))
  | stop _, h => (.nil, h)

/-- Store elements in the table at `ref`, from number `i + 1` on. -/
def fillArray (ref : Nat) : List Doc → Nat → List LuaTable → List LuaTable
  | [], _, h => h
  | d :: ds, i, h =>
    let (v, h) := d.materialise h
    fillArray ref ds (i + 1)
      (h.modify ref (·.set (LuaBinaryTable.integer (toInt32 (toInt32 i + 1))) v))

/-- Store entries in the table at `ref`. -/
def fillTable (ref : Nat) : List Doc → List LuaTable → List LuaTable
  | k :: v :: ds, h =>
    let (kv, h) := k.materialise h
    let (vv, h) := v.materialise h
    fillTable ref ds (h.modify ref (·.set kv vv))
  | _, h => h

end

section

variable (sizes : TableSizes)

mutual

/-- How the decoder ends on a document. -/
def outcome : Doc → Outcome
  | array size items => if sizes (toInt32 size) 0 then outcomeItems items else .raises
  | table size items => if sizes 0 (toInt32 size) then outcomeEntries items else .raises
  | stop why => why.outcome
  | _ => .complete

def outcomeItems : List Doc → Outcome
  | [] => .complete
  | d :: ds => d.outcome.andThen (outcomeItems ds)

def outcomeEntries : List Doc → Outcome
  | [] => .complete
  | [k] => k.outcome
  | k :: v :: ds =>
    k.outcome.andThen (v.outcome.andThen (if k.isKey then outcomeEntries ds else .raises))

end

mutual

/-- The greatest number of slots that the decoder uses for the document, its result included. -/
def slots : Doc → Nat
  | array size items => if sizes (toInt32 size) 0 then 1 + slotsItems items else 0
  | table size items => if sizes 0 (toInt32 size) then 1 + slotsEntries items else 0
  | stop _ => 0
  | _ => 1

def slotsItems : List Doc → Nat
  | [] => 0
  | d :: ds => max d.slots (if d.outcome sizes = .complete then slotsItems ds else 0)

def slotsEntries : List Doc → Nat
  | [] => 0
  | [k] => k.slots
  | k :: v :: ds =>
    max k.slots (if k.outcome sizes = .complete then
      max (1 + v.slots)
        (if v.outcome sizes = .complete ∧ k.isKey then slotsEntries ds else 0)
      else 0)

end

end

end Doc

end LuaBinaryTable
