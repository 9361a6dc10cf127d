import LuaBinaryTable.Lua.Acyclic
import LuaBinaryTable.Lua.Heap
import Mathlib.Data.List.Forall2

/-!
# Values with the same content

Two values, each in its heap, have the same content when they unfold to the same tree: equal
scalars, and tables whose entries correspond in some order.  `SameFrom base` also asks that the
tables of the second value lie from `base` on, so that a change of the heap below `base` does not
matter to it.
-/

namespace LuaBinaryTable

open LuaValue

/-- The value `w` of the heap `h'` has the content of the value `v` of the heap `h`, in tables from
`base` on. -/
inductive SameFrom (base : Nat) (h h' : List LuaTable) : LuaValue → LuaValue → Prop
  | scalar {v : LuaValue} (hv : v.type ≠ .table) : SameFrom base h h' v v
  | number {x y : Binary64} (hxy : x.equal y = true) : SameFrom base h h' (.number x) (.number y)
  | table {ref ref' : Nat} {t t' : LuaTable} {es : Entries} (ht : h[ref]? = some t)
      (ht' : h'[ref']? = some t') (hbase : base ≤ ref') (hperm : es.Perm t'.entries)
      (hlen : t.entries.length = es.length)
      (keys : ∀ (i : Nat) (hi : i < t.entries.length) (hi' : i < es.length),
        SameFrom base h h' t.entries[i].1 es[i].1)
      (values : ∀ (i : Nat) (hi : i < t.entries.length) (hi' : i < es.length),
        SameFrom base h h' t.entries[i].2 es[i].2) :
      SameFrom base h h' (.table ref) (.table ref')

/-- Two values with the same content. -/
abbrev SameValue (h h' : List LuaTable) : LuaValue → LuaValue → Prop := SameFrom 0 h h'

/-- Two entries with the same content. -/
def SameEntry (base : Nat) (h h' : List LuaTable) (e e' : LuaValue × LuaValue) : Prop :=
  SameFrom base h h' e.1 e'.1 ∧ SameFrom base h h' e.2 e'.2

namespace SameFrom

variable {base : Nat} {h h' h'' : List LuaTable} {v w : LuaValue}

/-- Tables whose entries correspond in some order. -/
theorem of_entries {ref ref' : Nat} {t t' : LuaTable} {es es' : Entries} (ht : h[ref]? = some t)
    (ht' : h'[ref']? = some t') (hbase : base ≤ ref') (hes : t.entries.Perm es)
    (hes' : es'.Perm t'.entries) (hsame : List.Forall₂ (SameEntry base h h') es es') :
    SameFrom base h h' (.table ref) (.table ref') := by
  obtain ⟨es'', hsame'', hperm⟩ := List.perm_comp_forall₂ hes hsame
  obtain ⟨hlen, hget⟩ := List.forall₂_iff_get.mp hsame''
  exact .table ht ht' hbase (hperm.trans hes') hlen (fun i hi hi' => (hget i hi hi').1)
    fun i hi hi' => (hget i hi hi').2

/-- The entries of a table correspond to those of a table with the same content. -/
theorem exists_entries {ref : Nat} {t : LuaTable} (ht : h[ref]? = some t)
    (hs : SameFrom base h h' (.table ref) w) : ∃ ref' t' es, w = .table ref' ∧
      h'[ref']? = some t' ∧ base ≤ ref' ∧ es.Perm t'.entries ∧
        List.Forall₂ (SameEntry base h h') t.entries es := by
  cases hs with
  | scalar hv => exact absurd rfl hv
  | table ht₀ ht' hbase hperm hlen keys values =>
    cases ht.symm.trans ht₀
    exact ⟨_, _, _, rfl, ht', hbase, hperm, List.forall₂_iff_get.mpr ⟨hlen, fun i hi hi' =>
      ⟨keys i hi hi', values i hi hi'⟩⟩⟩

/-- The bound may be lowered. -/
theorem mono {base' : Nat} (hle : base' ≤ base) (hs : SameFrom base h h' v w) :
    SameFrom base' h h' v w := by
  induction hs with
  | scalar hv => exact .scalar hv
  | number hxy => exact .number hxy
  | table ht ht' hbase hperm hlen _ _ ihk ihv =>
    exact .table ht ht' (hle.trans hbase) hperm hlen ihk ihv

/-- Tables below the bound do not matter. -/
theorem heap (hs : SameFrom base h h' v w)
    (hh : ∀ i, base ≤ i → i < h'.length → h''[i]? = h'[i]?) : SameFrom base h h'' v w := by
  induction hs with
  | scalar hv => exact .scalar hv
  | number hxy => exact .number hxy
  | table ht ht' hbase hperm hlen _ _ ihk ihv =>
    have hlt := (List.getElem?_eq_some_iff.mp ht').1
    exact .table ht ((hh _ hbase hlt).trans ht') hbase hperm hlen ihk ihv

theorem grows (hs : SameFrom base h h' v w) (hg : Grows h' h'') : SameFrom base h h'' v w :=
  hs.heap fun i _ hi => hg.old i hi

/-- Only `nil` has the content of `nil`. -/
theorem eq_nil_iff (hs : SameFrom base h h' v w) : w = .nil ↔ v = .nil := by
  cases hs <;> simp

/-- The table of a value lies in its heap. -/
theorem lt_length {ref : Nat} (hs : SameFrom base h h' v (.table ref)) : ref < h'.length := by
  cases hs with
  | scalar hv => exact absurd rfl hv
  | table _ ht' => exact (List.getElem?_eq_some_iff.mp ht').1

theorem isKey_eq (hs : SameFrom base h h' v w) : w.isKey = v.isKey := by
  cases hs with
  | scalar hv => rfl
  | number hxy =>
    obtain ⟨hx, hy, _⟩ := Binary64.equal_iff.mp hxy
    rw [isKey, isKey, hx, hy]
  | table => rfl

/-- Values that are no tables and whose copies are raw-equal are raw-equal. -/
theorem rawEqual_of_copies {base' : Nat} {u u' : LuaValue} (hs : SameFrom base h h' v w)
    (hs' : SameFrom base' h h'' u u') (hv : v.type ≠ .table) (heq : w.rawEqual u' = true) :
    v.rawEqual u = true := by
  cases hs with
  | scalar hv =>
    cases hs' with
    | scalar => exact heq
    | number hxy => exact rawEqual_trans heq (rawEqual_symm hxy)
    | table =>
      rcases rawEqual_iff.mp heq with ⟨_, _, _, hc, _⟩ | ⟨_, rfl⟩
      · cases hc
      · exact absurd rfl hv
  | number hxy =>
    have hw := rawEqual_trans (rawEqual_number _ _ ▸ hxy) heq
    cases hs' with
    | scalar => exact hw
    | number hxy' => exact rawEqual_trans hw (rawEqual_symm hxy')
    | table =>
      rcases rawEqual_iff.mp heq with ⟨_, _, _, hc, _⟩ | ⟨_, hc⟩ <;> cases hc
  | table => exact absurd rfl hv

/-- A copy in new tables is raw-equal to no older copy of another value. -/
theorem rawEqual_eq_false {u u' : LuaValue} (hs : SameFrom base h h' v w)
    (hs' : SameFrom h'.length h h'' u u') (hne : v.rawEqual u = false) : w.rawEqual u' = false := by
  by_contra hc
  rw [Bool.not_eq_false] at hc
  by_cases hv : v.type = .table
  · cases hs with
    | scalar hv' => exact hv' hv
    | number => cases hv
    | table ht ht' =>
      -- the older table lies below the new one
      have hlt := (List.getElem?_eq_some_iff.mp ht').1
      rcases rawEqual_iff.mp hc with ⟨_, _, h, _⟩ | ⟨_, rfl⟩
      · cases h
      · cases hs' with
        | scalar hv' => exact hv' rfl
        | table _ _ hbase => omega
  · rw [hs.rawEqual_of_copies hs' hv hc] at hne
    cases hne

/-- Values with a common copy have the same content. -/
theorem of_common {base' : Nat} {h₁ h₂ : List LuaTable} {v₁ v₂ : LuaValue}
    (hs₁ : SameFrom base h₁ h v₁ w) (hs₂ : SameFrom base' h₂ h v₂ w) : SameValue h₁ h₂ v₁ v₂ := by
  induction hs₁ generalizing v₂ with
  | scalar hv =>
    cases hs₂ with
    | scalar => exact .scalar hv
    | number hxy => exact .number ((Binary64.equal_comm _ _).trans hxy)
    | table => exact absurd rfl hv
  | number hxy =>
    cases hs₂ with
    | scalar => exact .number hxy
    | number hxy' =>
      exact .number (Binary64.equal_trans hxy ((Binary64.equal_comm _ _).trans hxy'))
  | table ht₁ ht _ hperm hlen _ _ ihk ihv =>
    cases hs₂ with
    | scalar hv => exact absurd rfl hv
    | @table _ _ t₂ _ es₂ ht₂ ht' _ hperm' hlen' keys values =>
      cases ht.symm.trans ht'
      have hsame₂ : List.Forall₂ (SameEntry base' h₂ h) t₂.entries es₂ :=
        List.forall₂_iff_get.mpr ⟨hlen', fun i hi hi' => ⟨keys i hi hi', values i hi hi'⟩⟩
      -- the entries of the second table, in the order of the copies of the first
      obtain ⟨es, hsame, hes⟩ :=
        List.perm_comp_forall₂ (hperm.trans hperm'.symm) (List.Forall₂.flip hsame₂)
      obtain ⟨hlen'', hget⟩ := List.forall₂_iff_get.mp hsame
      exact .table ht₁ ht₂ (Nat.zero_le _) hes (hlen.trans hlen'')
        (fun i hi hi' => ihk i hi (hlen ▸ hi) (hget i (hlen ▸ hi) hi').1)
        fun i hi hi' => ihv i hi (hlen ▸ hi) (hget i (hlen ▸ hi) hi').2

end SameFrom

/-- Entries stay the same under a lower bound. -/
theorem SameEntry.mono {base base' : Nat} {h h' : List LuaTable} {e e' : LuaValue × LuaValue}
    (hle : base' ≤ base) (hs : SameEntry base h h' e e') : SameEntry base' h h' e e' :=
  ⟨hs.1.mono hle, hs.2.mono hle⟩

/-- An acyclic value has its own content. -/
theorem Acyclic.sameValue {h : List LuaTable} {v : LuaValue} (ha : Acyclic h v) :
    SameValue h h v v := by
  induction ha with
  | scalar hv => exact .scalar hv
  | table ht _ _ ihk ihv =>
    exact .table ht ht (Nat.zero_le _) (List.Perm.refl _) rfl
      (fun i hi _ => ihk _ (List.getElem_mem hi)) fun i hi _ => ihv _ (List.getElem_mem hi)

end LuaBinaryTable
