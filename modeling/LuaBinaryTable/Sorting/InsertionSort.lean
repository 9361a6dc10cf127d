import LuaBinaryTable.Sorting.Program

/-!
# Insertion sort as a sort program

Each element is sunk from the right into the sorted part, which is compared from its largest
element down.  `insertionSort` permutes its array, raises only when a comparison raises, compares
the two elements of a two-element array, and sorts under every strict total order.
-/

namespace LuaBinaryTable

variable {α : Type}

open SortProgram

/-- Sink `x` below the elements of `front` (largest first) that exceed it; `back` are those it has
passed and `rest` the elements still to come. -/
def insertInto (x : α) (rest : List α) (next : List α → SortProgram α) :
    List α → List α → SortProgram α
  | [], back => next (x :: back)
  | y :: front, back =>
    .compare (front.reverse ++ y :: x :: back ++ rest) x y fun below =>
      if below then insertInto x rest next front (y :: back)
      else next (front.reverse ++ y :: x :: back)

/-- Insertion sort of the remaining elements into the sorted part. -/
def insertAll (sorted : List α) : List α → SortProgram α
  | [] => .done sorted
  | x :: rest => insertInto x rest (fun s => insertAll s rest) sorted.reverse []

def insertionSort : Sorter α := insertAll []

variable (cmp : α → α → Option Bool)

/-! ### Runs -/

/-- An insertion that ends hands on the sorted part with `x` put somewhere into it. -/
theorem run_insertInto_ok {x : α} {rest ys : List α} {next : List α → SortProgram α} :
    ∀ (front back : List α), (insertInto x rest next front back).run cmp = .ok ys →
      ∃ s, s.Perm (x :: (front.reverse ++ back)) ∧ (next s).run cmp = .ok ys
  | [], back, h => ⟨x :: back, List.Perm.refl _, h⟩
  | y :: front, back, h => by
    have hperm : (front.reverse ++ y :: x :: back).Perm (x :: ((y :: front).reverse ++ back)) := by
      rw [List.reverse_cons, List.append_assoc, List.singleton_append]
      calc (front.reverse ++ y :: x :: back).Perm (front.reverse ++ x :: y :: back) :=
            (List.Perm.swap x y back).append_left _
        List.Perm _ (x :: (front.reverse ++ y :: back)) := List.perm_middle
    simp only [insertInto, run] at h
    cases hc : cmp x y with
    | none => simp [hc] at h
    | some below =>
      rw [hc] at h
      cases below with
      | true =>
        obtain ⟨s, hs, hr⟩ := run_insertInto_ok front (y :: back) h
        refine ⟨s, hs.trans ?_, hr⟩
        rw [List.reverse_cons, List.append_assoc, List.singleton_append]
      | false => exact ⟨_, hperm, h⟩

theorem run_insertAll_perm :
    ∀ (xs sorted ys : List α), (insertAll sorted xs).run cmp = .ok ys → ys.Perm (sorted ++ xs)
  | [], sorted, ys, h => by
    simp only [insertAll, run, Except.ok.injEq] at h
    simp [h]
  | x :: rest, sorted, ys, h => by
    obtain ⟨s, hs, hr⟩ := run_insertInto_ok cmp sorted.reverse [] h
    rw [List.reverse_reverse, List.append_nil] at hs
    calc ys.Perm (s ++ rest) := run_insertAll_perm rest s ys hr
      List.Perm _ (x :: (sorted ++ rest)) := hs.append_right rest
      List.Perm _ (sorted ++ x :: rest) := List.perm_middle.symm

theorem insertionSort_permutes : (insertionSort : Sorter α).Permutes :=
  fun cmp xs ys h => run_insertAll_perm cmp xs [] ys h

/-- An insertion that raises leaves all elements in the array. -/
theorem run_insertInto_error_perm {x : α} {rest ys : List α} {next : List α → SortProgram α}
    (hnext : ∀ s, (next s).run cmp = .error ys → ys.Perm (s ++ rest)) :
    ∀ (front back : List α), (insertInto x rest next front back).run cmp = .error ys →
      ys.Perm (front.reverse ++ x :: back ++ rest)
  | [], back, h => hnext _ h
  | y :: front, back, h => by
    have hperm : (front.reverse ++ y :: x :: back ++ rest).Perm
        ((y :: front).reverse ++ x :: back ++ rest) := by
      rw [List.reverse_cons, List.append_assoc _ [y], List.singleton_append]
    have hswap : (front.reverse ++ x :: y :: back ++ rest).Perm
        (front.reverse ++ y :: x :: back ++ rest) :=
      ((List.Perm.swap y x back).append_left _).append_right _
    simp only [insertInto, run] at h
    cases hc : cmp x y with
    | none =>
      rw [hc] at h
      cases h
      exact hperm
    | some below =>
      rw [hc] at h
      cases below with
      | true => exact (run_insertInto_error_perm hnext front (y :: back) h).trans (hswap.trans hperm)
      | false => exact (hnext _ h).trans hperm

theorem run_insertAll_error_perm :
    ∀ (xs sorted ys : List α), (insertAll sorted xs).run cmp = .error ys → ys.Perm (sorted ++ xs)
  | [], sorted, ys, h => by simp [insertAll, run] at h
  | x :: rest, sorted, ys, h => by
    have hp := run_insertInto_error_perm cmp (fun s => run_insertAll_error_perm rest s ys)
      sorted.reverse [] h
    rwa [List.reverse_reverse, List.append_assoc, List.singleton_append] at hp

theorem insertionSort_rearranges : (insertionSort : Sorter α).Rearranges := by
  intro cmp xs ys h
  rcases h with h | h
  · exact insertionSort_permutes cmp xs ys h
  · exact run_insertAll_error_perm cmp xs [] ys h

/-- An insertion that raises has met a comparison that raises, or passed the error on. -/
theorem run_insertInto_error {x : α} {rest ys : List α} {next : List α → SortProgram α}
    (hnext : ∀ s, (next s).run cmp = .error ys → ∃ u v, Asks cmp u v (next s) ∧ cmp u v = none) :
    ∀ (front back : List α), (insertInto x rest next front back).run cmp = .error ys →
      ∃ u v, Asks cmp u v (insertInto x rest next front back) ∧ cmp u v = none
  | [], back, h => hnext _ h
  | y :: front, back, h => by
    simp only [insertInto, run] at h
    cases hc : cmp x y with
    | none => exact ⟨x, y, .here _ _, hc⟩
    | some below =>
      rw [hc] at h
      cases below with
      | true =>
        obtain ⟨u, v, ha, hn⟩ := run_insertInto_error hnext front (y :: back) h
        exact ⟨u, v, .later hc ha, hn⟩
      | false =>
        obtain ⟨u, v, ha, hn⟩ := hnext _ h
        exact ⟨u, v, .later hc ha, hn⟩

theorem run_insertAll_error :
    ∀ (xs sorted ys : List α), (insertAll sorted xs).run cmp = .error ys →
      ∃ u v, Asks cmp u v (insertAll sorted xs) ∧ cmp u v = none
  | [], sorted, ys, h => by simp [insertAll, run] at h
  | _ :: rest, sorted, ys, h =>
    run_insertInto_error cmp (fun s => run_insertAll_error rest s ys) sorted.reverse [] h

theorem insertionSort_raisesByComparing : (insertionSort : Sorter α).RaisesByComparing :=
  fun cmp xs ys h => run_insertAll_error cmp xs [] ys h

/-! ### Sortedness -/

/-- Sinking `x` into a sorted part keeps it sorted. -/
theorem run_insertInto_sorted (x : α) (rest : List α) (next : List α → SortProgram α) :
    ∀ (front back : List α),
      (∀ y ∈ front, cmp x y ≠ none) →
      (∀ y ∈ front, ∀ z ∈ front, cmp y z = some true → cmp z x = some true →
        cmp y x = some true) →
      (∀ y ∈ front, cmp x y = some false → cmp y x = some true) →
      (∀ y ∈ back, cmp x y = some true) →
      (front.reverse ++ back).Pairwise (fun a b => cmp a b = some true) →
      ∃ s, s.Perm (x :: (front.reverse ++ back)) ∧ s.Pairwise (fun a b => cmp a b = some true) ∧
        (insertInto x rest next front back).run cmp = (next s).run cmp
  | [], back, _, _, _, hb, hs =>
    ⟨x :: back, List.Perm.refl _, List.pairwise_cons.mpr ⟨hb, hs⟩, rfl⟩
  | y :: front, back, ha, htr, hf, hb, hs => by
    have hsplit : (y :: front).reverse ++ back = front.reverse ++ y :: back := by simp
    rw [hsplit] at hs ⊢
    cases hc : cmp x y with
    | none => exact absurd hc (ha y (List.mem_cons_self ..))
    | some below =>
      cases below with
      | true =>
        obtain ⟨s, hp, hsorted, hr⟩ := run_insertInto_sorted x rest next front (y :: back)
          (fun z hz => ha z (List.mem_cons_of_mem _ hz))
          (fun z hz w hw => htr z (List.mem_cons_of_mem _ hz) w (List.mem_cons_of_mem _ hw))
          (fun z hz => hf z (List.mem_cons_of_mem _ hz))
          (fun z hz => (List.mem_cons.mp hz).elim (fun h => h ▸ hc) (hb z)) hs
        refine ⟨s, hp, hsorted, ?_⟩
        simp only [insertInto, run, hc, if_true]
        exact hr
      | false =>
        -- `x` stays behind `y`, and so behind all of the front
        have hyx := hf y (List.mem_cons_self ..) hc
        refine ⟨front.reverse ++ y :: x :: back, ?_, ?_, ?_⟩
        · calc (front.reverse ++ y :: x :: back).Perm (front.reverse ++ x :: y :: back) :=
              (List.Perm.swap x y back).append_left _
            List.Perm _ (x :: (front.reverse ++ y :: back)) := List.perm_middle
        · rw [List.pairwise_append] at hs ⊢
          obtain ⟨h1, h2, h3⟩ := hs
          rw [List.pairwise_cons] at h2
          refine ⟨h1, ?_, ?_⟩
          · rw [List.pairwise_cons, List.pairwise_cons]
            refine ⟨?_, hb, h2.2⟩
            intro z hz
            rcases List.mem_cons.mp hz with rfl | hz
            · exact hyx
            · exact h2.1 z hz
          · intro z hz w hw
            have hzy := h3 z hz y (List.mem_cons_self ..)
            rcases List.mem_cons.mp hw with rfl | hw
            · exact hzy
            · rcases List.mem_cons.mp hw with rfl | hw
              · exact htr z (List.mem_cons_of_mem _ (List.mem_reverse.mp hz)) y
                  (List.mem_cons_self ..) hzy hyx
              · exact h3 z hz w (List.mem_cons_of_mem _ hw)
        · simp [insertInto, run, hc]

/-- The elements go one after the other into a list that stays sorted. -/
theorem run_insertAll_sorted {all : List α} (ht : Sorter.StrictTotal cmp all) :
    ∀ (xs sorted : List α), (sorted ++ xs).Perm all →
      sorted.Pairwise (fun a b => cmp a b = some true) →
      ∃ ys, (insertAll sorted xs).run cmp = .ok ys ∧ ys.Perm (sorted ++ xs) ∧
        ys.Pairwise (fun a b => cmp a b = some true)
  | [], sorted, _, hs => ⟨sorted, rfl, by simp, hs⟩
  | x :: rest, sorted, hp, hs => by
    have hx : x ∈ all := hp.subset (by simp)
    have hmem : ∀ y ∈ sorted.reverse, y ∈ all := fun y hy =>
      hp.subset (List.mem_append_left _ (List.mem_reverse.mp hy))
    have htot : ∀ y ∈ sorted.reverse, cmp x y = some true ∨ cmp y x = some true := by
      intro y hy
      have hpw : (sorted ++ x :: rest).Pairwise
          fun a b => cmp a b = some true ∨ cmp b a = some true :=
        (hp.pairwise_iff Or.symm).mpr ht.total
      exact ((List.pairwise_append.mp hpw).2.2 y (List.mem_reverse.mp hy) x (by simp)).symm
    -- the next element goes into those sorted before, from their greatest down
    obtain ⟨s, hsp, hss, hr⟩ := run_insertInto_sorted cmp x rest
      (fun s => insertAll s rest) sorted.reverse []
      (fun y hy => ht.answers x hx y (hmem y hy))
      (fun y hy z hz => ht.trans y (hmem y hy) z (hmem z hz) x hx)
      (fun y hy hf => (htot y hy).resolve_left (by rw [hf]; simp)) (by simp) (by simpa using hs)
    rw [List.reverse_reverse, List.append_nil] at hsp
    have hperm : (s ++ rest).Perm (sorted ++ x :: rest) :=
      (hsp.append_right rest).trans List.perm_middle.symm
    obtain ⟨ys, hys, hyp, hysorted⟩ := run_insertAll_sorted ht rest s (hperm.trans hp) hss
    exact ⟨ys, hr.trans hys, hyp.trans hperm, hysorted⟩

theorem insertionSort_sorts : (insertionSort : Sorter α).Sorts :=
  fun cmp xs ht => run_insertAll_sorted cmp ht xs [] (List.Perm.refl _) List.Pairwise.nil

end LuaBinaryTable
