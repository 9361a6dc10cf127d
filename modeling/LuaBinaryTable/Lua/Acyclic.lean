import LuaBinaryTable.Lua.State

/-!
# Values without cycles

An `Acyclic` value of a heap is one that can be unfolded: a scalar, or a table of the heap whose
keys and values are acyclic.  `Nested n` bounds the depth of the unfolding, and every acyclic value
has such a bound.
-/

namespace LuaBinaryTable

inductive Acyclic (h : List LuaTable) : LuaValue → Prop
  | scalar {v : LuaValue} (hv : v.type ≠ .table) : Acyclic h v
  | table {ref : Nat} {t : LuaTable} (ht : h[ref]? = some t)
      (keys : ∀ e ∈ t.entries, Acyclic h e.1) (values : ∀ e ∈ t.entries, Acyclic h e.2) :
      Acyclic h (.table ref)

/-- The tables of a value are nested less than `n` deep. -/
def Nested (h : List LuaTable) : Nat → LuaValue → Prop
  | 0, _ => False
  | n + 1, .table ref => ∃ t, h[ref]? = some t ∧ ∀ e ∈ t.entries, Nested h n e.1 ∧ Nested h n e.2
  | _ + 1, _ => True

variable {h : List LuaTable}

theorem Nested.mono : ∀ {n m : Nat} {v : LuaValue}, n ≤ m → Nested h n v → Nested h m v
  | n + 1, m + 1, v, hle, hn => by
    cases v with
    | table ref =>
      obtain ⟨t, ht, he⟩ := hn
      exact ⟨t, ht, fun e hm =>
        ⟨(he e hm).1.mono (Nat.le_of_succ_le_succ hle),
          (he e hm).2.mono (Nat.le_of_succ_le_succ hle)⟩⟩
    | _ => trivial

theorem nested_of_scalar {n : Nat} {v : LuaValue} (hn : 0 < n) (hv : v.type ≠ .table) :
    Nested h n v := by
  obtain ⟨m, rfl⟩ := Nat.exists_eq_succ_of_ne_zero hn.ne'
  cases v with
  | table ref => exact absurd rfl hv
  | _ => trivial

/-- A bound for each of finitely many values gives one for all. -/
theorem exists_nested_of_forall {es : Entries}
    (hk : ∀ e ∈ es, ∃ n, Nested h n e.1) (hv : ∀ e ∈ es, ∃ n, Nested h n e.2) :
    ∃ n, ∀ e ∈ es, Nested h n e.1 ∧ Nested h n e.2 := by
  induction es with
  | nil => exact ⟨0, by simp⟩
  | cons e es ih =>
    obtain ⟨n, hn⟩ := ih (fun e' he' => hk e' (List.mem_cons_of_mem _ he'))
      (fun e' he' => hv e' (List.mem_cons_of_mem _ he'))
    obtain ⟨nk, hnk⟩ := hk e (List.mem_cons_self ..)
    obtain ⟨nv, hnv⟩ := hv e (List.mem_cons_self ..)
    refine ⟨max n (max nk nv), fun e' he' => ?_⟩
    rcases List.mem_cons.mp he' with rfl | he'
    · exact ⟨hnk.mono (by omega), hnv.mono (by omega)⟩
    · exact ⟨(hn e' he').1.mono (by omega), (hn e' he').2.mono (by omega)⟩

theorem Acyclic.exists_nested {v : LuaValue} (ha : Acyclic h v) : ∃ n, Nested h n v := by
  induction ha with
  | @scalar v hv =>
    refine ⟨1, ?_⟩
    cases v with
    | table ref => exact absurd rfl hv
    | _ => trivial
  | table ht _ _ ihk ihv =>
    obtain ⟨n, hn⟩ := exists_nested_of_forall ihk ihv
    exact ⟨n + 1, _, ht, hn⟩

theorem Nested.acyclic : ∀ {n : Nat} {v : LuaValue}, Nested h n v → Acyclic h v
  | n + 1, v, hn => by
    cases v with
    | table ref =>
      obtain ⟨t, ht, he⟩ := hn
      exact .table ht (fun e hm => (he e hm).1.acyclic) fun e hm => (he e hm).2.acyclic
    | _ => exact .scalar (by simp [LuaValue.type])

/-- The table of an acyclic reference. -/
theorem Acyclic.exists_table {ref : Nat} (ha : Acyclic h (.table ref)) :
    ∃ t, h[ref]? = some t ∧ (∀ e ∈ t.entries, Acyclic h e.1) ∧
      ∀ e ∈ t.entries, Acyclic h e.2 := by
  cases ha with
  | scalar hv => exact absurd rfl hv
  | table ht hk hv => exact ⟨_, ht, hk, hv⟩

end LuaBinaryTable
