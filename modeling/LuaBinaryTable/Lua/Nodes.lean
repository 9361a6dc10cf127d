import LuaBinaryTable.Lua.SameValue
import Mathlib.Algebra.BigOperators.Group.List.Basic

/-!
# The size of a value

`nodes` counts the values in the tree that a value unfolds to, a table once for each path to it.  It
is the same for values with the same content, and does not depend on the fuel.
-/

namespace LuaBinaryTable

/-- The nodes of the tree, to a depth of `fuel`. -/
def nodes (h : List LuaTable) : Nat → LuaValue → Nat
  | fuel + 1, .table ref =>
    1 + ((h[ref]?.elim [] LuaTable.entries).map fun e => nodes h fuel e.1 + nodes h fuel e.2).sum
  | _, _ => 1

variable {h h' : List LuaTable}

theorem nodes_scalar {v : LuaValue} (hv : v.type ≠ .table) (fuel : Nat) : nodes h fuel v = 1 := by
  cases v with
  | table => exact absurd rfl hv
  | _ => cases fuel <;> rfl

theorem nodes_table {ref : Nat} {t : LuaTable} (ht : h[ref]? = some t) (fuel : Nat) :
    nodes h (fuel + 1) (.table ref) =
      1 + (t.entries.map fun e => nodes h fuel e.1 + nodes h fuel e.2).sum := by
  rw [nodes, ht]
  rfl

/-- Fuel that suffices makes no difference. -/
theorem nodes_of_nested : ∀ {n m : Nat} {v : LuaValue}, Nested h n v → Nested h m v →
    nodes h n v = nodes h m v
  | n + 1, m + 1, v, hn, hm => by
    cases v with
    | table ref =>
      obtain ⟨t, ht, hn⟩ := hn
      obtain ⟨t', ht', hm⟩ := hm
      cases ht.symm.trans ht'
      rw [nodes_table ht, nodes_table ht]
      congr 2
      refine List.map_congr_left fun e he => ?_
      rw [nodes_of_nested (hn e he).1 (hm e he).1, nodes_of_nested (hn e he).2 (hm e he).2]
    | _ => rfl

/-- Values with the same content have the same size. -/
theorem nodes_of_same {base : Nat} : ∀ {fuel : Nat} {v w : LuaValue}, SameFrom base h h' v w →
    nodes h fuel v = nodes h' fuel w
  | 0, _, _, _ => rfl
  | fuel + 1, v, w, hs => by
    cases v with
    | table ref =>
      cases hs with
      | scalar hv => exact absurd rfl hv
      | @table _ _ t t' es ht ht' hbase hperm hlen keys values =>
        rw [nodes_table ht, nodes_table ht']
        have hsum : (t.entries.map fun e => nodes h fuel e.1 + nodes h fuel e.2) =
            es.map fun e => nodes h' fuel e.1 + nodes h' fuel e.2 := by
          refine List.ext_getElem (by simpa using hlen) fun i hi hi' => ?_
          rw [List.length_map] at hi hi'
          rw [List.getElem_map, List.getElem_map, nodes_of_same (keys i hi hi'),
            nodes_of_same (values i hi hi')]
        rw [hsum, (hperm.map _).sum_eq]
    | _ =>
      have hw : w.type ≠ .table := by
        cases hs <;> simp [LuaValue.type]
      rw [nodes_scalar (by simp [LuaValue.type]), nodes_scalar hw]

/-- A value is nested as deep as one with the same content. -/
theorem Nested.of_same {base : Nat} : ∀ {n : Nat} {v w : LuaValue}, SameFrom base h h' v w →
    Nested h n v → Nested h' n w
  | n + 1, v, w, hs, hn => by
    cases v with
    | table ref =>
      obtain ⟨t, ht, he⟩ := hn
      obtain ⟨ref', t', es, rfl, ht', _, hperm, hsame⟩ := hs.exists_entries ht
      obtain ⟨hlen, hget⟩ := List.forall₂_iff_get.mp hsame
      refine ⟨t', ht', fun e' he' => ?_⟩
      obtain ⟨i, hi, rfl⟩ := List.mem_iff_getElem.mp (hperm.mem_iff.mpr he')
      have hi' : i < t.entries.length := hlen ▸ hi
      obtain ⟨hk, hv⟩ := hget i hi' hi
      obtain ⟨hnk, hnv⟩ := he _ (List.getElem_mem hi')
      exact ⟨hnk.of_same hk, hnv.of_same hv⟩
    | _ =>
      cases w with
      | table => cases hs
      | _ => trivial

end LuaBinaryTable
