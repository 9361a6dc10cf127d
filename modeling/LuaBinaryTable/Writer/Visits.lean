import LuaBinaryTable.Writer.WriteValue

/-!
# The states of a traversal

`visits` lists the states in which `writeValue` stands, in their order: at every call of it, behind
the header of every table, behind every call of `storeString`, and at every return.  It follows the
control flow of `writeTable` and `writeValue` and takes every state from them.
-/

namespace LuaBinaryTable

/-- The state in which a run returns successfully. -/
def returned : Run LuaState (Bool × WriteState) → List WriteState
  | .returns (true, s) => [s]
  | _ => []

/-- The states that a writer visits. -/
abbrev ValueVisits := Int → WriteState → List WriteState

/-- The states in the loop over an array. -/
def arrayVisits (writeValue : ValueWriter) (visits : ValueVisits) (index : Int) :
    Nat → Nat → WriteState → List WriteState
  | 0, _, _ => []
  | n + 1, i, s =>
    let s := { s with L := s.L.rawgeti index i }
    visits (-1) s ++ match writeValue (-1) s with
      | .returns (true, s) =>
        arrayVisits writeValue visits index n (i + 1) { s with L := s.L.pop 1 }
      | _ => []

/-- The states in the loop over the sorted keys: those of the key, then those of the value. -/
def hashVisits (writeValue : ValueWriter) (visits : ValueVisits) (index : Int) :
    Nat → Nat → WriteState → List WriteState
  | 0, _, _ => []
  | n + 1, i, s =>
    let s := { s with L := s.L.rawgeti (-1) i }
    visits (-1) s ++ match writeValue (-1) s with
      | .returns (true, s) =>
        let s := { s with L := s.L.rawget index }
        visits (-1) s ++ match writeValue (-1) s with
          | .returns (true, s) =>
            hashVisits writeValue visits index n (i + 1) { s with L := s.L.pop 1 }
          | _ => []
      | _ => []

/-- The states of a table: after its tag, after the sort, and in its loop. -/
def tableVisits (env : Env) (writeValue : ValueWriter) (visits : ValueVisits) : ValueVisits :=
  fun index s =>
    let index := if index < 0 then s.L.gettop + index + 1 else index
    let (length, L) := countTableLength s.L index
    let s := { s with L := L }
    if length = 0 then []
    else if length = s.L.objlen index then
      let s := { s with stream := writeLength s.stream .tArray0 length }
      s :: arrayVisits writeValue visits index length 1 s
    else
      let s := { s with stream := writeLength s.stream .tTable0 length }
      match getSortedTableKeys env s.L index with
      | (0, L) => [s, { s with L := L }]
      | (_, L) => s :: hashVisits writeValue visits index length 1 { s with L := L }

/-- The states that `writeValue` goes through, from the one it is called in to the one it returns
in. -/
def visits (env : Env) : Nat → ValueVisits
  | 0, _, s => [s]
  | fuel + 1, index, s =>
    s :: ((match s.L.index2adr index with
      | .string str =>
        if str.length = 0 then []
        else
          match s.strTable.storeString s.L index with
          | .returns (_, strTable, L) => [{ s with L := L, strTable := strTable }]
          | _ => []
      | .table _ => tableVisits env (writeValue env fuel) (visits env fuel) index s
      | _ => []) ++ returned (writeValue env (fuel + 1) index s))

/-! ### The state of a return is visited -/

variable {env : Env}

/-- A writer whose runs return in a state that is visited. -/
def Visited (vw : ValueWriter) (vs : ValueVisits) : Prop :=
  ∀ index s ok s', vw index s = .returns (ok, s') → s' ∈ vs index s

/-- A loop over an array that fails does so in a state visited. -/
theorem mem_arrayVisits {vw : ValueWriter} {vs : ValueVisits} (hvw : Visited vw vs) (index : Int) :
    ∀ (n i : Nat) (s s' : WriteState), writeArrayLoop vw index n i s = .returns (false, s') →
      s' ∈ arrayVisits vw vs index n i s
  | 0, i, s, s', h => by cases h
  | n + 1, i, s, s', h => by
    obtain ⟨⟨ok, s₁⟩, hx, hf⟩ := Run.bind_eq_returns.mp h
    rw [arrayVisits, List.mem_append]
    cases ok with
    | true =>
      right
      rw [hx]
      exact mem_arrayVisits hvw index n (i + 1) _ s' hf
    | false =>
      left
      cases hf
      exact hvw _ _ _ _ hx

theorem mem_hashVisits {vw : ValueWriter} {vs : ValueVisits} (hvw : Visited vw vs) (index : Int) :
    ∀ (n i : Nat) (s s' : WriteState), writeHashLoop vw index n i s = .returns (false, s') →
      s' ∈ hashVisits vw vs index n i s
  | 0, i, s, s', h => by cases h
  | n + 1, i, s, s', h => by
    obtain ⟨⟨ok, s₁⟩, hx, hf⟩ := Run.bind_eq_returns.mp h
    rw [hashVisits, List.mem_append]
    cases ok with
    | false =>
      left
      cases hf
      exact hvw _ _ _ _ hx
    | true =>
      right
      -- the key is written, so the value or a later entry has failed
      obtain ⟨⟨ok, s₂⟩, hx', hf'⟩ := Run.bind_eq_returns.mp hf
      simp only [hx, List.mem_append]
      cases ok with
      | false =>
        left
        cases hf'
        exact hvw _ _ _ _ hx'
      | true =>
        right
        rw [hx']
        exact mem_hashVisits hvw index n (i + 1) _ s' hf'

/-- A table fails after its sort or in its loop. -/
theorem mem_tableVisits {vw : ValueWriter} {vs : ValueVisits} (hvw : Visited vw vs) (index : Int)
    (s s' : WriteState) (h : writeTable env vw index s = .returns (false, s')) :
    s' ∈ tableVisits env vw vs index s := by
  simp only [writeTable, tableVisits] at h ⊢
  generalize (if index < 0 then (s.L.gettop : Int) + index + 1 else index) = i at h ⊢
  generalize countTableLength s.L i = c at h ⊢
  obtain ⟨length, L⟩ := c
  simp only at h ⊢
  split_ifs at h ⊢
  · cases h
  · exact List.mem_cons_of_mem _ (mem_arrayVisits hvw _ _ _ _ _ h)
  · generalize getSortedTableKeys env L _ = keys at h ⊢
    obtain ⟨n, L'⟩ := keys
    cases n with
    | zero =>
      cases h
      exact List.mem_cons_of_mem _ (List.mem_cons_self ..)
    | succ n =>
      obtain ⟨⟨ok, s₁⟩, hx, hf⟩ := Run.bind_eq_returns.mp h
      cases ok with
      | true => cases hf
      | false =>
        cases hf
        exact List.mem_cons_of_mem _ (mem_hashVisits hvw _ _ _ _ _ hx)

/-- The state in which a run returns is one of those visited. -/
theorem mem_visits : ∀ fuel, Visited (writeValue env fuel) (visits env fuel)
  | 0 => fun _ _ _ _ h => by cases h
  | fuel + 1 => by
    intro index s ok s' h
    rw [visits]
    cases ok with
    | true => simp [h, returned]
    -- a failed run returns the state in which its last part failed
    | false =>
      rw [writeValue] at h
      cases hv : s.L.index2adr index with
      | table ref =>
        rw [hv] at h
        exact List.mem_cons_of_mem _ (List.mem_append_left _
          (mem_tableVisits (mem_visits fuel) index s s' h))
      | string str =>
        simp only [hv] at h
        split_ifs at h
        · cases h
        · obtain ⟨⟨i, st, L⟩, _, hf⟩ := Run.bind_eq_returns.mp h
          cases hf
      | nil | boolean =>
        rw [hv] at h
        cases h
      | number v =>
        simp only [hv] at h
        split_ifs at h
        · cases h
        · cases h
      | lightuserdata | function | userdata | thread =>
        rw [hv] at h
        cases h
        exact List.mem_cons_self ..

end LuaBinaryTable
