import LuaBinaryTable.Document.Layout
import LuaBinaryTable.Lua.Reachable
import LuaBinaryTable.Writer.DumpValue

/-!
# The text of a dump

`dumpText` is the text of a value, given the order in which the entries of each table are printed.
`dumpValue` prints it in the order of the sorted keys (`printOrder`), where the sorts succeed.
-/

namespace LuaBinaryTable

/-- A line break with the indentation of the next line. -/
def lineBreak (indent : Int) : Bytes := 10 :: List.replicate indent.toNat 9

/-- An entry, from the texts of its key and its value. -/
def itemText (indent maxIndent : Int) (item : Bytes × Bytes) : Bytes :=
  (if indent ≤ maxIndent then lineBreak indent else []) ++ 91 :: item.1 ++ bytesOf "] = " ++
    item.2 ++ [44]

/-- The text of a table, from the texts of its keys and values. -/
def tableText (indent maxIndent : Int) (items : List (Bytes × Bytes)) : Bytes :=
  123 :: items.flatMap (itemText indent maxIndent) ++
    (if indent ≤ maxIndent ∧ 0 < items.length then lineBreak (indent - 1) else []) ++ [125]

/-- The text of a value other than a table. -/
def scalarText (env : Env) : LuaValue → Bytes
  | .nil => bytesOf "nil"
  | .boolean b => bytesOf (if b then "true" else "false")
  | .string s => 34 :: s ++ [34]
  | .number n => n.formatG14
  | v => env.pointerText (env.topointer v)

/-- The text of a value, the entries of the table at each reference printed in the order given. -/
def dumpText (env : Env) (order : Nat → Entries) : Nat → LuaValue → Int → Int → Bytes
  | 0, _, _, _ => []
  | fuel + 1, .table ref, indent, maxIndent =>
    tableText indent maxIndent ((order ref).map fun e =>
      (dumpText env order fuel e.1 1 0, dumpText env order fuel e.2 (indent + 1) maxIndent))
  | _ + 1, v, _, _ => scalarText env v

/-- The entries in the order of the sorted keys. -/
def LuaTable.sortedEntries (env : Env) (t : LuaTable) : Entries :=
  ((t.sortedKeys env).getD []).map fun k => (k, t.get k)

/-- The entries of the table at a place of the heap, as they are printed. -/
def printOrder (env : Env) (h : List LuaTable) (ref : Nat) : Entries :=
  (h[ref]?).elim [] (·.sortedEntries env)

/-- The keys of every table that the value leads to can be sorted. -/
def Sortable (env : Env) (h : List LuaTable) (v : LuaValue) : Prop :=
  ∀ r t, Reaches h v r → h[r]? = some t → t.sortedKeys env ≠ none

variable {env : Env} {h : List LuaTable} {r : Nat} {t : LuaTable}

/-- Sorting every table below a table. -/
theorem sortable_table_iff (ht : h[r]? = some t) :
    Sortable env h (.table r) ↔
      t.sortedKeys env ≠ none ∧ ∀ e ∈ t.entries, Sortable env h e.1 ∧ Sortable env h e.2 := by
  constructor
  · intro hs
    refine ⟨hs r t ((reaches_table_iff ht).mpr (Or.inl rfl)) ht, fun e he => ⟨?_, ?_⟩⟩
    · exact fun s u hr => hs s u (hr.of_key ht he)
    · exact fun s u hr => hs s u (hr.of_value ht he)
  · rintro ⟨hself, hbelow⟩ s u hr hu
    rcases (reaches_table_iff ht).mp hr with rfl | ⟨e, he, hr | hr⟩
    · cases ht.symm.trans hu
      exact hself
    · exact (hbelow e he).1 s u hr hu
    · exact (hbelow e he).2 s u hr hu

theorem sortable_of_not_table {v : LuaValue} (hv : v.type ≠ .table) : Sortable env h v := by
  rintro s u ⟨s₀, rfl, _⟩ _
  exact absurd rfl hv

end LuaBinaryTable
