import LuaBinaryTable.Document.Encode
import LuaBinaryTable.Lua.Nodes

/-!
# The size of a document

`Doc.nodes` counts the values in a document, and `poolSize` the bytes of a pool.
-/

namespace LuaBinaryTable

namespace Doc

mutual

/-- The values in a document, itself included. -/
def nodes : Doc → Nat
  | array _ items => 1 + nodesItems items
  | table _ items => 1 + nodesItems items
  | _ => 1

def nodesItems : List Doc → Nat
  | [] => 0
  | d :: ds => d.nodes + nodesItems ds

end

/-- The bytes of the strings of a pool, each with its length. -/
def poolSize (strs : List Bytes) : Nat := (strs.map fun s => stringLengthSize + s.length).sum

theorem nodesItems_eq (ds : List Doc) : nodesItems ds = (ds.map nodes).sum := by
  induction ds with
  | nil => rfl
  | cons d ds ih => rw [nodesItems, ih, List.map_cons, List.sum_cons]

theorem nodes_pos (d : Doc) : 0 < d.nodes := by
  cases d with
  | array size items => rw [nodes]; omega
  | table size items => rw [nodes]; omega
  | _ => exact Nat.one_pos

end Doc

end LuaBinaryTable
