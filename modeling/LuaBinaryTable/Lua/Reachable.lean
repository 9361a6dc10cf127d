import LuaBinaryTable.Lua.Acyclic
import Mathlib.Data.Fintype.Card
import Mathlib.Data.Set.Finite.Lattice
import Mathlib.Logic.Relation

/-!
# Reachable tables

The tables of a heap are a graph, in which a table points to the tables among its keys and values.
`acyclic_iff`: a value is acyclic exactly where all references that it reaches are to tables of the
heap, and it reaches no cycle.
-/

namespace LuaBinaryTable

variable {h : List LuaTable}

/-- The table at `r` has the table at `s` as a key or as a value. -/
def Points (h : List LuaTable) (r s : Nat) : Prop :=
  ∃ t, h[r]? = some t ∧ ∃ e ∈ t.entries, e.1 = .table s ∨ e.2 = .table s

/-- The value leads to the table at `r`. -/
def Reaches (h : List LuaTable) (v : LuaValue) (r : Nat) : Prop :=
  ∃ r₀, v = .table r₀ ∧ Relation.ReflTransGen (Points h) r₀ r

/-- All references that the value leads to are to tables of the heap. -/
def Closed (h : List LuaTable) (v : LuaValue) : Prop := ∀ r, Reaches h v r → r < h.length

/-- The value leads to a table that leads back to itself. -/
def ReachesCycle (h : List LuaTable) (v : LuaValue) : Prop :=
  ∃ r, Reaches h v r ∧ Relation.TransGen (Points h) r r

/-! ### Reaching through an entry -/

section

variable {r : Nat} {t : LuaTable} (ht : h[r]? = some t)

include ht

theorem Reaches.of_key {e : LuaValue × LuaValue} (he : e ∈ t.entries) {s : Nat}
    (hs : Reaches h e.1 s) : Reaches h (.table r) s := by
  obtain ⟨s₀, hv, hs⟩ := hs
  exact ⟨r, rfl, .head ⟨t, ht, e, he, Or.inl hv⟩ hs⟩

theorem Reaches.of_value {e : LuaValue × LuaValue} (he : e ∈ t.entries)
    {s : Nat} (hs : Reaches h e.2 s) : Reaches h (.table r) s := by
  obtain ⟨s₀, hv, hs⟩ := hs
  exact ⟨r, rfl, .head ⟨t, ht, e, he, Or.inr hv⟩ hs⟩

/-- A table leads to itself and to what its keys and values lead to. -/
theorem reaches_table_iff {s : Nat} :
    Reaches h (.table r) s ↔
      s = r ∨ ∃ e ∈ t.entries, Reaches h e.1 s ∨ Reaches h e.2 s := by
  constructor
  · rintro ⟨_, hv, hs⟩
    cases hv
    rcases Relation.ReflTransGen.cases_head hs with rfl | ⟨c, ⟨t', ht', e, he, hc⟩, hs⟩
    · exact Or.inl rfl
    · cases ht.symm.trans ht'
      exact Or.inr ⟨e, he, hc.imp (fun hc => ⟨c, hc, hs⟩) fun hc => ⟨c, hc, hs⟩⟩
  · rintro (rfl | ⟨e, he, hs | hs⟩)
    · exact ⟨s, rfl, .refl⟩
    · exact hs.of_key ht he
    · exact hs.of_value ht he

end

/-! ### Closed values -/

/-- What a table of a closed value holds is closed. -/
theorem Closed.exists_table {r : Nat} (hc : Closed h (.table r)) :
    ∃ t, h[r]? = some t ∧ (∀ e ∈ t.entries, Closed h e.1) ∧ ∀ e ∈ t.entries, Closed h e.2 := by
  have hlt : r < h.length := hc r ⟨r, rfl, .refl⟩
  have ht : h[r]? = some h[r] := List.getElem?_eq_getElem hlt
  exact ⟨h[r], ht, fun e he s hs => hc s (hs.of_key ht he), fun e he s hs =>
    hc s (hs.of_value ht he)⟩

theorem closed_nil : Closed h .nil := by
  rintro r ⟨r₀, hv, _⟩
  cases hv

/-- What a table holds under any key is closed. -/
theorem closed_get {t : LuaTable} (hv : ∀ e ∈ t.entries, Closed h e.2) (k : LuaValue) :
    Closed h (t.get k) := by
  by_cases hn : t.get k = .nil
  · rw [hn]
    exact closed_nil
  · obtain ⟨e, he, _, hk⟩ := Entries.exists_of_lookup_ne_nil hn
    rw [LuaTable.get, hk]
    exact hv e he

/-! ### Acyclic values -/

theorem Nested.points {n r s : Nat} (hn : Nested h (n + 1) (.table r)) (hp : Points h r s) :
    Nested h n (.table s) := by
  obtain ⟨t, ht, he⟩ := hn
  obtain ⟨t', ht', e, hm, hs⟩ := hp
  cases ht.symm.trans ht'
  rcases hs with hs | hs
  · exact hs ▸ (he e hm).1
  · exact hs ▸ (he e hm).2

theorem Nested.reaches {n r s : Nat} (hn : Nested h n (.table r))
    (hs : Relation.ReflTransGen (Points h) r s) : Nested h n (.table s) := by
  induction hs with
  | refl => exact hn
  | tail _ hp ih =>
    cases n with
    | zero => exact ih.elim
    | succ n => exact (ih.points hp).mono (Nat.le_succ n)

/-- A table nested to some depth is on no cycle, since each turn of it would lead deeper. -/
theorem Nested.no_cycle : ∀ {n r : Nat}, Nested h n (.table r) →
    ¬ Relation.TransGen (Points h) r r
  | n + 1, r, hn, hc => by
    obtain ⟨s, hp, hs⟩ := Relation.TransGen.head'_iff.mp hc
    exact ((hn.points hp).reaches hs).no_cycle hc

theorem Nested.lt_length {n r : Nat} (hn : Nested h n (.table r)) : r < h.length := by
  cases n with
  | zero => exact hn.elim
  | succ n =>
    obtain ⟨t, ht, _⟩ := hn
    exact (List.getElem?_eq_some_iff.mp ht).1

/-- A value is acyclic exactly where it leads to tables of the heap only, and to no cycle. -/
theorem acyclic_iff {v : LuaValue} : Acyclic h v ↔ Closed h v ∧ ¬ ReachesCycle h v := by
  constructor
  · intro ha
    obtain ⟨n, hn⟩ := ha.exists_nested
    constructor
    · rintro r ⟨r₀, rfl, hr⟩
      exact (hn.reaches hr).lt_length
    · rintro ⟨r, ⟨r₀, rfl, hr⟩, hc⟩
      exact (hn.reaches hr).no_cycle hc
  · rintro ⟨hclosed, hcycle⟩
    cases v with
    | table r₀ =>
      -- the tables reached are finitely many, and without a cycle pointing is well founded there
      have hfin : Finite {r // Relation.ReflTransGen (Points h) r₀ r} :=
        Set.Finite.to_subtype ((Set.finite_lt_nat h.length).subset fun r hr =>
          hclosed r ⟨r₀, rfl, hr⟩)
      let below : {r // Relation.ReflTransGen (Points h) r₀ r} →
          {r // Relation.ReflTransGen (Points h) r₀ r} → Prop :=
        fun a b => Relation.TransGen (Points h) b.1 a.1
      have htrans : IsTrans _ below := ⟨fun a b c hab hbc => hbc.trans hab⟩
      have hirrefl : Std.Irrefl below := ⟨fun a ha => hcycle ⟨a.1, ⟨r₀, rfl, a.2⟩, ha⟩⟩
      have hwf : WellFounded below := Finite.wellFounded_of_trans_of_irrefl below
      -- so the tables can be taken children first
      have hall : ∀ a : {r // Relation.ReflTransGen (Points h) r₀ r}, Acyclic h (.table a.1) := by
        intro a
        induction a using hwf.induction with
        | _ a ih =>
          obtain ⟨t, ht, _⟩ := Closed.exists_table (r := a.1) (h := h) fun s hs => by
            obtain ⟨_, hv, hs⟩ := hs
            cases hv
            exact hclosed s ⟨r₀, rfl, a.2.trans hs⟩
          have hchild : ∀ e ∈ t.entries, ∀ w, w = e.1 ∨ w = e.2 → Acyclic h w := by
            intro e he w hw
            cases w with
            | table s =>
              have hp : Points h a.1 s :=
                ⟨t, ht, e, he, hw.imp Eq.symm Eq.symm⟩
              exact ih ⟨s, a.2.tail hp⟩ (.single hp)
            | _ => exact .scalar (by simp [LuaValue.type])
          exact .table ht (fun e he => hchild e he _ (Or.inl rfl))
            fun e he => hchild e he _ (Or.inr rfl)
      exact hall ⟨r₀, .refl⟩
    | _ => exact .scalar (by simp [LuaValue.type])

theorem Acyclic.closed {v : LuaValue} (ha : Acyclic h v) : Closed h v := (acyclic_iff.mp ha).1

end LuaBinaryTable
