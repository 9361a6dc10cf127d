import LuaBinaryTable.Sorting.Program
import Mathlib.Data.Int.Basic
import Mathlib.Logic.Equiv.Basic

/-!
# Sorts in place

A sort in place works on a store of numbered cells (`Cells`) and asks a comparator.  A `CellSort` is
what it does, as a tree: at each node the store as it stands, the two values compared next, and how
the sort goes on for either verdict.  `Ends` is the rule for runs: it says of a sort that it keeps
an invariant of the store at each comparison, which values it compares, that it ends by itself, and
what holds then.

`Within` is the frame of a change: the cells outside of a range are as before, and those inside hold
values of the range.

A sort in place that holds a list of elements is a `SortProgram` on it (`CellSort.program`), which
ends as the sort does as long as the store holds the elements (`Ends.run_program`).  A store that
does not hold them is shown as the list itself.
-/

namespace LuaBinaryTable

variable {σ α : Type}

/-- Reading and writing the cells of a store. -/
structure Cells (σ α : Type) where
  get : σ → Int → α
  set : σ → Int → α → σ

/-- A sort at work on a store. -/
inductive CellSort (σ α : Type) where
  | done (s : σ)
  /-- The sort has found the comparator inconsistent. -/
  | invalid (s : σ)
  | diverges
  | compare (s : σ) (x y : α) (next : Bool → CellSort σ α)

/-- How a run of a sort ends. -/
inductive SortEnd (σ : Type) where
  | done (s : σ)
  /-- The comparator has raised an error. -/
  | raised (s : σ)
  | invalid (s : σ)
  | diverges

namespace CellSort

/-- A run under a comparator, for which `none` is an error raised. -/
def run (cmp : α → α → Option Bool) : CellSort σ α → SortEnd σ
  | done s => .done s
  | invalid s => .invalid s
  | diverges => .diverges
  | compare s x y next =>
    match cmp x y with
    | none => .raised s
    | some verdict => (next verdict).run cmp

/-- The run keeps `V` at each comparison, compares values with `E` only, and, where no comparison
raises, ends by itself with `Q`. -/
def Ends (cmp : α → α → Option Bool) (V : σ → Prop) (E : α → Prop) (Q : σ → Prop) :
    CellSort σ α → Prop
  | done s => Q s
  | invalid _ => False
  | diverges => False
  | compare s x y next =>
    V s ∧ (E x ∧ E y) ∧ ∀ verdict, cmp x y = some verdict → (next verdict).Ends cmp V E Q

variable {cmp : α → α → Option Bool} {V Q : σ → Prop} {E : α → Prop}

/-- What is kept and what holds at the end may be weakened. -/
theorem Ends.imp {V' Q' : σ → Prop} (hV : ∀ s, V s → V' s) (hQ : ∀ s, Q s → Q' s)
    {p : CellSort σ α} (h : p.Ends cmp V E Q) : p.Ends cmp V' E Q' := by
  induction p with
  | done s => exact hQ s h
  | invalid s => exact h
  | diverges => exact h
  | compare s x y next ih => exact ⟨hV s h.1, h.2.1, fun verdict hc => ih verdict (h.2.2 verdict hc)⟩

/-! ### As a program on a list -/

section

variable [DecidableEq α] (contents : σ → List α) (xs : List α)

/-- The elements of a store, `xs` where they are not those of `xs`. -/
def shown (s : σ) : List α := if (contents s).Perm xs then contents s else xs

/-- The sort as a program on the list `xs`.  A comparator found inconsistent is an error, and so
is a sort that does not come to an end. -/
def program : CellSort σ α → SortProgram α
  | done s => .done (shown contents xs s)
  | invalid s => .raise (shown contents xs s)
  | diverges => .raise xs
  | compare s x y next => .compare (shown contents xs s) x y fun verdict => program (next verdict)

variable {contents xs}

/-- Where the run keeps the elements of `xs`, the program ends as the sort does. -/
theorem Ends.run_program {p : CellSort σ α}
    (hV : ∀ s, V s → (contents s).Perm xs) (h : p.Ends cmp V E (fun s => V s ∧ Q s)) :
    (∃ s, p.run cmp = .done s ∧ V s ∧ Q s ∧
        (p.program contents xs).run cmp = .ok (contents s)) ∨
      ∃ s, p.run cmp = .raised s ∧ V s ∧
        (∃ x y, E x ∧ E y ∧ SortProgram.Asks cmp x y (p.program contents xs) ∧ cmp x y = none) ∧
          (p.program contents xs).run cmp = .error (contents s) := by
  induction p with
  | done s =>
    refine Or.inl ⟨s, rfl, h.1, h.2, ?_⟩
    rw [program, SortProgram.run, shown, if_pos (hV s h.1)]
  | invalid s => exact h.elim
  | diverges => exact h.elim
  | compare s x y next ih =>
    simp only [program, SortProgram.run, CellSort.run]
    cases hc : cmp x y with
    | none =>
      refine Or.inr ⟨s, rfl, h.1, ⟨x, y, h.2.1.1, h.2.1.2, .here _ _, hc⟩, ?_⟩
      simp only [shown, if_pos (hV s h.1)]
    | some verdict =>
      -- the comparisons of the rest are comparisons of the run
      refine (ih verdict (h.2.2 verdict hc)).imp_right ?_
      rintro ⟨s', hr, hV', ⟨u, v, hu, hv, ha, hn⟩, hp⟩
      exact ⟨s', hr, hV', ⟨u, v, hu, hv, .later hc ha, hn⟩, hp⟩

end

end CellSort

namespace Cells

variable (c : Cells σ α)

/-- The values of two cells exchanged. -/
def swap (i j : Int) (s : σ) : σ := c.set (c.set s i (c.get s j)) j (c.get s i)

/-- The cells `1..n` of a store with `V` hold values with `E`, and exchanging two of them exchanges
their values and keeps `V`. -/
structure Lawful (n : Int) (V : σ → Prop) (E : α → Prop) : Prop where
  elem : ∀ {s k}, V s → 1 ≤ k → k ≤ n → E (c.get s k)
  valid_swap : ∀ {s i j}, V s → 1 ≤ i → i ≤ n → 1 ≤ j → j ≤ n → V (c.swap i j s)
  get_swap : ∀ {s i j k}, V s → 1 ≤ i → i ≤ n → 1 ≤ j → j ≤ n → 1 ≤ k → k ≤ n →
    c.get (c.swap i j s) k = c.get s (Equiv.swap i j k)

/-- Between two stores only cells of `l..u` have changed, and hold values of cells of `l..u`. -/
structure Within (n l u : Int) (s s' : σ) : Prop where
  outside : ∀ k, 1 ≤ k → k ≤ n → k < l ∨ u < k → c.get s' k = c.get s k
  inside : ∀ k, l ≤ k → k ≤ u → ∃ k', l ≤ k' ∧ k' ≤ u ∧ c.get s' k = c.get s k'

namespace Within

variable {c} {n l u : Int} {s s' s'' : σ}

theorem refl (n l u : Int) (s : σ) : c.Within n l u s s :=
  ⟨fun _ _ _ _ => rfl, fun k hl hu => ⟨k, hl, hu, rfl⟩⟩

theorem trans (h : c.Within n l u s s') (h' : c.Within n l u s' s'') : c.Within n l u s s'' := by
  refine ⟨fun k h1 hn hk => (h'.outside k h1 hn hk).trans (h.outside k h1 hn hk), fun k hl hu => ?_⟩
  obtain ⟨k', hl', hu', hk'⟩ := h'.inside k hl hu
  obtain ⟨k'', hl'', hu'', hk''⟩ := h.inside k' hl' hu'
  exact ⟨k'', hl'', hu'', hk'.trans hk''⟩

/-- What stays in a range stays in a larger one. -/
theorem mono {l' u' : Int} (h : c.Within n l u s s') (hl : l' ≤ l) (hu : u ≤ u') (h1 : 1 ≤ l')
    (hn : u' ≤ n) : c.Within n l' u' s s' := by
  refine ⟨fun k hk1 hkn hk => h.outside k hk1 hkn (by omega), fun k hkl hku => ?_⟩
  by_cases hk : k < l ∨ u < k
  · exact ⟨k, hkl, hku, h.outside k (by omega) (by omega) hk⟩
  · obtain ⟨k', hl', hu', hk'⟩ := h.inside k (by omega) (by omega)
    exact ⟨k', by omega, by omega, hk'⟩

/-- What holds of all values of the range holds of them afterwards. -/
theorem forall_get (h : c.Within n l u s s') {P : α → Prop}
    (hP : ∀ k, l ≤ k → k ≤ u → P (c.get s k)) : ∀ k, l ≤ k → k ≤ u → P (c.get s' k) := by
  intro k hl hu
  obtain ⟨k', hl', hu', hk'⟩ := h.inside k hl hu
  exact hk' ▸ hP k' hl' hu'

end Within

variable {c} {n : Int} {V : σ → Prop} {E : α → Prop} (hc : c.Lawful n V E)

include hc

theorem Lawful.get_swap_left {s : σ} {i j : Int} (hs : V s) (hi : 1 ≤ i ∧ i ≤ n)
    (hj : 1 ≤ j ∧ j ≤ n) : c.get (c.swap i j s) i = c.get s j := by
  rw [hc.get_swap hs hi.1 hi.2 hj.1 hj.2 hi.1 hi.2, Equiv.swap_apply_left]

theorem Lawful.get_swap_right {s : σ} {i j : Int} (hs : V s) (hi : 1 ≤ i ∧ i ≤ n)
    (hj : 1 ≤ j ∧ j ≤ n) : c.get (c.swap i j s) j = c.get s i := by
  rw [hc.get_swap hs hi.1 hi.2 hj.1 hj.2 hj.1 hj.2, Equiv.swap_apply_right]

theorem Lawful.get_swap_of_ne {s : σ} {i j k : Int} (hs : V s) (hi : 1 ≤ i ∧ i ≤ n)
    (hj : 1 ≤ j ∧ j ≤ n) (hk : 1 ≤ k ∧ k ≤ n) (hki : k ≠ i) (hkj : k ≠ j) :
    c.get (c.swap i j s) k = c.get s k := by
  rw [hc.get_swap hs hi.1 hi.2 hj.1 hj.2 hk.1 hk.2, Equiv.swap_apply_of_ne_of_ne hki hkj]

/-- An exchange stays within a range that has both cells. -/
theorem Lawful.within_swap {s : σ} {l u i j : Int} (hs : V s) (h1 : 1 ≤ l) (hn : u ≤ n)
    (hi : l ≤ i ∧ i ≤ u) (hj : l ≤ j ∧ j ≤ u) : c.Within n l u s (c.swap i j s) := by
  constructor
  · intro k hk1 hkn hk
    exact hc.get_swap_of_ne hs (by omega) (by omega) ⟨hk1, hkn⟩ (by omega) (by omega)
  · intro k hkl hku
    by_cases hki : k = i
    · subst hki
      exact ⟨j, hj.1, hj.2, hc.get_swap_left hs (by omega) (by omega)⟩
    · by_cases hkj : k = j
      · subst hkj
        exact ⟨i, hi.1, hi.2, hc.get_swap_right hs (by omega) (by omega)⟩
      · exact ⟨k, hkl, hku, hc.get_swap_of_ne hs (by omega) (by omega) (by omega) hki hkj⟩

end Cells

end LuaBinaryTable
