import LuaBinaryTable.Lua.State
import LuaBinaryTable.Types

/-!
# Documents

A `Doc` is the content of a document body, as a tree of the values that the tags announce.  It
stands between the two halves of the library: the encoder lays a Lua value out as a `Doc` and writes
it (`Document/Layout.lean`, `Document/Emit.lean`), and the decoder reads a `Doc` off the bytes and
builds the Lua value (`Document/Read.lean`, `Document/Materialise.lean`).

The keys and values of a table stand alternately in one list, as in the bytes.  Where a run breaks
off, the tree does too: it ends in a `stop`, and nothing follows.
-/

namespace LuaBinaryTable

/-- Why a document breaks off. -/
inductive Stop where
  /-- The bytes hold no value there. -/
  | malformed
  /-- The value has a type that the format does not know. -/
  | unsupported
  /-- The keys of a table cannot be sorted. -/
  | unsortable
  /-- The nesting exceeds the fuel. -/
  | deep
  deriving DecidableEq

/-- A value as the format has it, with the sizes that its tags declare.  It may break off. -/
inductive Doc where
  | nil
  | boolean (b : Bool)
  | integer (i : Int)
  | double (x : Binary64)
  | string (s : Bytes)
  | emptyTable
  | array (size : Nat) (items : List Doc)
  | table (size : Nat) (items : List Doc)
  | stop (why : Stop)

namespace Doc

mutual

/-- The first break, in the order of the bytes. -/
def stops : Doc → Option Stop
  | array _ items => stopsItems items
  | table _ items => stopsItems items
  | stop why => some why
  | _ => none

def stopsItems : List Doc → Option Stop
  | [] => none
  | d :: ds => d.stops.or (stopsItems ds)

end

/-- Nothing in the document breaks off. -/
def Complete (d : Doc) : Prop := d.stops = none

instance (d : Doc) : Decidable d.Complete := inferInstanceAs (Decidable (_ = _))

theorem stopsItems_eq_none {ds : List Doc} : stopsItems ds = none ↔ ∀ d ∈ ds, d.Complete := by
  induction ds with
  | nil => simp [stopsItems]
  | cons d ds ih => simp [stopsItems, Complete, ih]

/-- A table may have the value of the document as a key. -/
def isKey : Doc → Bool
  | nil => false
  | integer i => (LuaBinaryTable.integer i).isKey
  | double x => !x.isNaN
  | stop _ => false
  | _ => true

end Doc

end LuaBinaryTable
