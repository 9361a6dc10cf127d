import Mathlib.Data.List.Perm.Basic
import Mathlib.Data.List.Pairwise

/-!
# Comparison sorts, seen through the comparisons they make

A `SortProgram` is what a comparison sort does to an array, as a tree: at each node the array as it
stands, the two elements compared next, and how the sort goes on for either verdict.  Running it
with a comparator that may raise either ends with an array or raises, leaving the array as it stood
(`run`).  `Asks` is the comparisons a run makes.

`Permutes`, `Rearranges`, `RaisesByComparing` and `Sorts` are the properties of a library sort
that a caller may rely on.  `insertionSort` has them all.
-/

namespace LuaBinaryTable

variable {α : Type}

/-- A comparison sort at work on an array. -/
inductive SortProgram (α : Type) where
  | done (contents : List α)
  | raise (contents : List α)
  | compare (contents : List α) (x y : α) (next : Bool → SortProgram α)

/-- A comparison sort: what it does to each array. -/
abbrev Sorter (α : Type) := List α → SortProgram α

namespace SortProgram

/-- A run under a comparator, for which `none` is an error raised.  An error ends the run and
leaves the array as it stands. -/
def run (cmp : α → α → Option Bool) : SortProgram α → Except (List α) (List α)
  | done contents => .ok contents
  | raise contents => .error contents
  | compare contents x y next =>
    match cmp x y with
    | none => .error contents
    | some verdict => (next verdict).run cmp

/-- The run compares `u` with `v`. -/
inductive Asks (cmp : α → α → Option Bool) (u v : α) : SortProgram α → Prop where
  | here (contents : List α) (next : Bool → SortProgram α) : Asks cmp u v (compare contents u v next)
  | later {contents : List α} {x y : α} {next : Bool → SortProgram α} {verdict : Bool}
      (hv : cmp x y = some verdict) (h : Asks cmp u v (next verdict)) :
      Asks cmp u v (compare contents x y next)

/-- A run in which no comparison raises compares only what the comparator answers. -/
theorem cmp_ne_none_of_run_ok {cmp : α → α → Option Bool} {p : SortProgram α} {contents : List α}
    (h : p.run cmp = .ok contents) {u v : α} (ha : Asks cmp u v p) : cmp u v ≠ none := by
  induction ha with
  | here contents next =>
    intro hn
    simp [run, hn] at h
  | later hv _ ih =>
    simp only [run, hv] at h
    exact ih h

end SortProgram

namespace Sorter

open SortProgram

/-- When the sort ends, the array holds its elements again. -/
def Permutes (s : Sorter α) : Prop :=
  ∀ cmp xs ys, (s xs).run cmp = .ok ys → ys.Perm xs

/-- However the sort ends, the array holds its elements. -/
def Rearranges (s : Sorter α) : Prop :=
  ∀ cmp xs ys, (s xs).run cmp = .ok ys ∨ (s xs).run cmp = .error ys → ys.Perm xs

theorem Rearranges.permutes {s : Sorter α} (hs : s.Rearranges) : s.Permutes :=
  fun cmp xs ys h => hs cmp xs ys (Or.inl h)

/-- The sort raises only when a comparison it makes raises. -/
def RaisesByComparing (s : Sorter α) : Prop :=
  ∀ cmp xs ys, (s xs).run cmp = .error ys → ∃ u v, Asks cmp u v (s xs) ∧ cmp u v = none

/-- The comparator's verdicts on the elements of `xs` are a strict total order. -/
structure StrictTotal (cmp : α → α → Option Bool) (xs : List α) : Prop where
  answers : ∀ x ∈ xs, ∀ y ∈ xs, cmp x y ≠ none
  asymm : ∀ x ∈ xs, ∀ y ∈ xs, cmp x y = some true → cmp y x ≠ some true
  trans : ∀ x ∈ xs, ∀ y ∈ xs, ∀ z ∈ xs,
    cmp x y = some true → cmp y z = some true → cmp x z = some true
  total : xs.Pairwise fun x y => cmp x y = some true ∨ cmp y x = some true

/-- The sort orders every array on which the comparator is a strict total order. -/
def Sorts (s : Sorter α) : Prop :=
  ∀ cmp xs, StrictTotal cmp xs →
    ∃ ys, (s xs).run cmp = .ok ys ∧ ys.Perm xs ∧ ys.Pairwise fun x y => cmp x y = some true

/-- Under `RaisesByComparing`, a run ends exactly when no comparison it makes raises. -/
theorem run_ok_iff {s : Sorter α} (hs : s.RaisesByComparing) (cmp : α → α → Option Bool)
    (xs : List α) :
    (∃ ys, (s xs).run cmp = .ok ys) ↔ ∀ u v, Asks cmp u v (s xs) → cmp u v ≠ none := by
  constructor
  · rintro ⟨ys, h⟩ u v ha
    exact cmp_ne_none_of_run_ok h ha
  · intro h
    cases hr : (s xs).run cmp with
    | ok ys => exact ⟨ys, rfl⟩
    | error ys =>
      obtain ⟨u, v, ha, hn⟩ := hs cmp xs ys hr
      exact absurd hn (h u v ha)

end Sorter

end LuaBinaryTable
