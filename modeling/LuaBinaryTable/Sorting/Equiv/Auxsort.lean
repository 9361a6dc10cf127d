import LuaBinaryTable.Sorting.Auxsort
import Mathlib.Algebra.Group.Nat.Defs
import Mathlib.Algebra.Ring.Int.Defs

/-!
# What the quicksort does

Under a comparator that is asymmetric on the values of the cells, whether or not it raises, the
quicksort stays within its cells, never takes the comparator for inconsistent, and ends
(`ends_tableSort`): the pivot and the first cell stop the scans.  Where the order that the
comparator leaves is transitive, the cells are sorted at the end.  Since the smaller part goes to
the recursive call, the calls nest no deeper than the bits of the size.
-/

namespace LuaBinaryTable

variable {σ α : Type} {c : Cells σ α} {n : Int} {V Q : σ → Prop} {E : α → Prop}
  {cmp : α → α → Option Bool}

/-- The comparator never puts each of two values before the other. -/
def Asymmetric (cmp : α → α → Option Bool) (E : α → Prop) : Prop :=
  ∀ x y, E x → E y → cmp x y = some true → cmp y x ≠ some true

/-- `y` does not come before `x`. -/
def NotAfter (cmp : α → α → Option Bool) (x y : α) : Prop := cmp y x ≠ some true

/-- The cells `l..u` are in order. -/
def SortedOn (c : Cells σ α) (cmp : α → α → Option Bool) (l u : Int) (s : σ) : Prop :=
  ∀ i j, l ≤ i → i < j → j ≤ u → NotAfter cmp (c.get s i) (c.get s j)

/-- Not to come after is transitive. -/
def Transitive (cmp : α → α → Option Bool) (E : α → Prop) : Prop :=
  ∀ x y z, E x → E y → E z → NotAfter cmp x y → NotAfter cmp y z → NotAfter cmp x z

theorem Asymmetric.irrefl (hasymm : Asymmetric cmp E) {x : α} (hx : E x) : NotAfter cmp x x :=
  fun h => hasymm x x hx hx h h

theorem Asymmetric.notAfter (hasymm : Asymmetric cmp E) {x y : α} (hx : E x) (hy : E y)
    (h : cmp x y = some true) : NotAfter cmp x y :=
  hasymm x y hx hy h

theorem notAfter_of_false {x y : α} (h : cmp x y = some false) : NotAfter cmp y x := by
  rw [NotAfter, h]
  nofun

/-! ### The scans -/

/-- The scan upwards ends at the latest at a cell that is not less than the pivot. -/
theorem ends_scanUp {pivot : α} {l u stop : Int} {s : σ} {next : Int → CellSort σ α} (hs : V s)
    (hpivot : E pivot) (helem : ∀ k, l ≤ k → k ≤ u → E (c.get s k))
    (hstop : NotAfter cmp pivot (c.get s stop)) (hu : stop ≤ u) :
    ∀ (fuel : Nat) (i : Int), l ≤ i → i < stop → stop - i ≤ fuel →
      (∀ i', i < i' → i' ≤ stop → (∀ k, i < k → k < i' → cmp (c.get s k) pivot = some true) →
        NotAfter cmp pivot (c.get s i') → (next i').Ends cmp V E Q) →
      (scanUp c pivot u s next fuel i).Ends cmp V E Q
  | 0, i, _, hi, hf, _ => by omega
  | fuel + 1, i, hl, hi, hf, hnext => by
    refine ⟨hs, ⟨helem (i + 1) (by omega) (by omega), hpivot⟩, fun less hless => ?_⟩
    cases less with
    | true =>
      -- the cell where the scan has to stop is not less than the pivot, so this one is before it
      have hne : i + 1 ≠ stop := fun h => hstop (h ▸ hless)
      simp only [if_true]
      rw [if_neg (by omega)]
      refine ends_scanUp hs hpivot helem hstop hu fuel (i + 1) (by omega) (by omega) (by omega) ?_
      intro i' hlt hle hbelow
      refine hnext i' (by omega) hle fun k hk hk' => ?_
      by_cases hki : k = i + 1
      · rw [hki, hless]
      · exact hbelow k (by omega) hk'
    | false =>
      simp only [Bool.false_eq_true, if_false]
      exact hnext (i + 1) (by omega) (by omega) (fun k hk hk' => by omega) (notAfter_of_false hless)

/-- The scan downwards ends at the latest at a cell that the pivot is not less than. -/
theorem ends_scanDown {pivot : α} {l u stop : Int} {s : σ} {next : Int → CellSort σ α} (hs : V s)
    (hpivot : E pivot) (helem : ∀ k, l ≤ k → k ≤ u → E (c.get s k))
    (hstop : NotAfter cmp (c.get s stop) pivot) (hl : l ≤ stop) :
    ∀ (fuel : Nat) (j : Int), j ≤ u → stop < j → j - stop ≤ fuel →
      (∀ j', j' < j → stop ≤ j' → (∀ k, j' < k → k < j → cmp pivot (c.get s k) = some true) →
        NotAfter cmp (c.get s j') pivot → (next j').Ends cmp V E Q) →
      (scanDown c pivot l s next fuel j).Ends cmp V E Q
  | 0, j, _, hj, hf, _ => by omega
  | fuel + 1, j, hu, hj, hf, hnext => by
    refine ⟨hs, ⟨hpivot, helem (j - 1) (by omega) (by omega)⟩, fun less hless => ?_⟩
    cases less with
    | true =>
      -- the same from above
      have hne : j - 1 ≠ stop := fun h => hstop (h ▸ hless)
      simp only [if_true]
      rw [if_neg (by omega)]
      refine ends_scanDown hs hpivot helem hstop hl fuel (j - 1) (by omega) (by omega) (by omega) ?_
      intro j' hlt hle habove
      refine hnext j' (by omega) hle fun k hk hk' => ?_
      by_cases hkj : k = j - 1
      · rw [hkj, hless]
      · exact habove k hk (by omega)
    | false =>
      simp only [Bool.false_eq_true, if_false]
      exact hnext (j - 1) (by omega) (by omega) (fun k hk hk' => by omega) (notAfter_of_false hless)

/-! ### The partition -/

/-- The cells up to `i` do not come after the pivot, those from `j` on not before it, and the pivot
waits in the last cell but one. -/
structure Parted (c : Cells σ α) (cmp : α → α → Option Bool) (pivot : α) (l u i j : Int) (s : σ) :
    Prop where
  low : ∀ k, l ≤ k → k ≤ i → NotAfter cmp (c.get s k) pivot
  high : ∀ k, j ≤ k → k ≤ u → NotAfter cmp pivot (c.get s k)
  pivot_eq : c.get s (u - 1) = pivot

section

variable (hc : c.Lawful n V E) (hasymm : Asymmetric cmp E)

include hc

/-- Exchanging the cells at which the scans have stopped. -/
theorem Parted.swap {pivot : α} {l u i' j' : Int} {s : σ} (hs : V s) (h1 : 1 ≤ l) (hn : u ≤ n)
    (hi : l < i') (hij : i' ≤ j') (hj : j' < u - 1)
    (hlow : ∀ k, l ≤ k → k < i' → NotAfter cmp (c.get s k) pivot)
    (hhigh : ∀ k, j' < k → k ≤ u → NotAfter cmp pivot (c.get s k))
    (hi' : NotAfter cmp pivot (c.get s i')) (hj' : NotAfter cmp (c.get s j') pivot)
    (hpivot : c.get s (u - 1) = pivot) : Parted c cmp pivot l u i' j' (c.swap i' j' s) := by
  have hir : 1 ≤ i' ∧ i' ≤ n := by omega
  have hjr : 1 ≤ j' ∧ j' ≤ n := by omega
  refine ⟨fun k hl hk => ?_, fun k hk hu => ?_, ?_⟩
  · by_cases hki : k = i'
    · rw [hki, hc.get_swap_left hs hir hjr]
      exact hj'
    · rw [hc.get_swap_of_ne hs hir hjr (by omega) hki (by omega)]
      exact hlow k hl (by omega)
  · by_cases hkj : k = j'
    · rw [hkj, hc.get_swap_right hs hir hjr]
      exact hi'
    · rw [hc.get_swap_of_ne hs hir hjr (by omega) (by omega) hkj]
      exact hhigh k (by omega) hu
  · rw [hc.get_swap_of_ne hs hir hjr (by omega) (by omega) (by omega), hpivot]

include hasymm

/-- The partition ends with a cell at which the range can be split. -/
theorem ends_partitionLoop {pivot : α} {l u : Int} (h1 : 1 ≤ l) (hn : u ≤ n)
    {next : σ → Int → CellSort σ α} :
    ∀ (fuel : Nat) (i j : Int) (s : σ), V s → l ≤ i → i ≤ u - 2 → l < j → i ≤ j → j ≤ u - 1 →
      u - 1 - i ≤ fuel → Parted c cmp pivot l u i j s →
      (∀ s' i', V s' → c.Within n l u s s' → l < i' → i' ≤ u - 1 →
        Parted c cmp pivot l u (i' - 1) i' s' → (next s' i').Ends cmp V E Q) →
      (partitionLoop c pivot l u next fuel i j s).Ends cmp V E Q
  | 0, i, j, s, _, _, _, _, _, _, hf, _, _ => by omega
  | fuel + 1, i, j, s, hs, hli, hiu, hlj, hij, hju, hf, hp, hnext => by
    have helem : ∀ k, l ≤ k → k ≤ u → E (c.get s k) := fun k hl hu =>
      hc.elem hs (by omega) (by omega)
    have hpivotE : E pivot := hp.pivot_eq ▸ helem (u - 1) (by omega) (by omega)
    -- the pivot stops the first scan, and the first cell the second
    refine ends_scanUp hs hpivotE helem (hp.high (u - 1) hju (by omega)) (by omega) _ i hli (by omega)
      (by omega) ?_
    intro i' hlt hle hbelow hi'
    refine ends_scanDown hs hpivotE helem (hp.low l (Int.le_refl l) hli) (Int.le_refl l) _ j (by omega)
      hlj (by omega) ?_
    intro j' hlt' hle' habove hj'
    have hlow : ∀ k, l ≤ k → k < i' → NotAfter cmp (c.get s k) pivot := by
      intro k hl hk
      by_cases hki : k ≤ i
      · exact hp.low k hl hki
      · exact hasymm.notAfter (helem k hl (by omega)) hpivotE (hbelow k (by omega) hk)
    have hhigh : ∀ k, j' < k → k ≤ u → NotAfter cmp pivot (c.get s k) := by
      intro k hk hu
      by_cases hkj : j ≤ k
      · exact hp.high k hkj hu
      · exact hasymm.notAfter hpivotE (helem k (by omega) hu) (habove k hk (by omega))
    split_ifs with hcross
    · refine hnext s i' hs (.refl ..) (by omega) hle ⟨fun k hl hk => hlow k hl (by omega), ?_,
        hp.pivot_eq⟩
      intro k hk hu
      by_cases hki : k = i'
      · exact hki ▸ hi'
      · exact hhigh k (by omega) hu
    · have hwithin := hc.within_swap hs h1 hn (i := i') (j := j') (by omega) (by omega)
      refine ends_partitionLoop h1 hn fuel i' j' _
        (hc.valid_swap hs (by omega) (by omega) (by omega) (by omega)) (by omega) (by omega)
        (by omega) (by omega) (by omega) (by omega)
        (Parted.swap hc hs h1 hn (by omega) (by omega) (by omega) hlow hhigh hi' hj' hp.pivot_eq) ?_
      intro s' i'' hs' hw
      exact hnext s' i'' hs' (hwithin.trans hw)

/-! ### The first three comparisons -/

/-- The ends are put in order with one comparison. -/
theorem ends_orderEnds {l u : Int} {s : σ} {next : σ → CellSort σ α} (hs : V s) (h1 : 1 ≤ l)
    (hn : u ≤ n) (hlu : l < u)
    (hnext : ∀ s', V s' → c.Within n l u s s' → NotAfter cmp (c.get s' l) (c.get s' u) →
      (next s').Ends cmp V E Q) :
    (orderEnds c l u s next).Ends cmp V E Q := by
  have hlr : 1 ≤ l ∧ l ≤ n := by omega
  have hur : 1 ≤ u ∧ u ≤ n := by omega
  refine ⟨hs, ⟨hc.elem hs hur.1 hur.2, hc.elem hs hlr.1 hlr.2⟩, fun less hless => ?_⟩
  cases less with
  | true =>
    refine hnext (c.swap l u s) (hc.valid_swap hs hlr.1 hlr.2 hur.1 hur.2)
      (hc.within_swap hs h1 hn (by omega) (by omega)) ?_
    rw [hc.get_swap_left hs hlr hur, hc.get_swap_right hs hlr hur]
    exact hasymm.notAfter (hc.elem hs hur.1 hur.2) (hc.elem hs hlr.1 hlr.2) hless
  | false => exact hnext s hs (.refl ..) (notAfter_of_false hless)

/-- The middle is put between the ends with one or two comparisons. -/
theorem ends_orderMiddle {l i u : Int} {s : σ} {next : σ → CellSort σ α} (hs : V s) (h1 : 1 ≤ l)
    (hn : u ≤ n) (hli : l < i) (hiu : i < u) (hends : NotAfter cmp (c.get s l) (c.get s u))
    (hnext : ∀ s', V s' → c.Within n l u s s' → NotAfter cmp (c.get s' l) (c.get s' i) →
      NotAfter cmp (c.get s' i) (c.get s' u) → (next s').Ends cmp V E Q) :
    (orderMiddle c l i u s next).Ends cmp V E Q := by
  have hlr : 1 ≤ l ∧ l ≤ n := by omega
  have hir : 1 ≤ i ∧ i ≤ n := by omega
  have hur : 1 ≤ u ∧ u ≤ n := by omega
  refine ⟨hs, ⟨hc.elem hs hir.1 hir.2, hc.elem hs hlr.1 hlr.2⟩, fun less hless => ?_⟩
  cases less with
  | true =>
    -- the middle gets what was first, and that is not after the last cell
    refine hnext (c.swap i l s) (hc.valid_swap hs hir.1 hir.2 hlr.1 hlr.2)
      (hc.within_swap hs h1 hn (by omega) (by omega)) ?_ ?_
    · rw [hc.get_swap_left hs hir hlr, hc.get_swap_right hs hir hlr]
      exact hasymm.notAfter (hc.elem hs hir.1 hir.2) (hc.elem hs hlr.1 hlr.2) hless
    · rw [hc.get_swap_left hs hir hlr, hc.get_swap_of_ne hs hir hlr hur (by omega) (by omega)]
      exact hends
  | false =>
    refine ⟨hs, ⟨hc.elem hs hur.1 hur.2, hc.elem hs hir.1 hir.2⟩, fun less' hless' => ?_⟩
    cases less' with
    | true =>
      refine hnext (c.swap i u s) (hc.valid_swap hs hir.1 hir.2 hur.1 hur.2)
        (hc.within_swap hs h1 hn (by omega) (by omega)) ?_ ?_
      · rw [hc.get_swap_left hs hir hur, hc.get_swap_of_ne hs hir hur hlr (by omega) (by omega)]
        exact hends
      · rw [hc.get_swap_left hs hir hur, hc.get_swap_right hs hir hur]
        exact hasymm.notAfter (hc.elem hs hur.1 hur.2) (hc.elem hs hir.1 hir.2) hless'
    | false => exact hnext s hs (.refl ..) (notAfter_of_false hless) (notAfter_of_false hless')

end

/-! ### The split -/

/-- No cell before `i` comes after it, and none behind `i` before it. -/
structure Split (c : Cells σ α) (cmp : α → α → Option Bool) (l u i : Int) (s : σ) : Prop where
  low : ∀ k, l ≤ k → k < i → NotAfter cmp (c.get s k) (c.get s i)
  high : ∀ k, i < k → k ≤ u → NotAfter cmp (c.get s i) (c.get s k)

namespace Split

variable {l u i : Int} {s s' : σ}

/-- Changes on the left of the split keep it. -/
theorem left (hp : Split c cmp l u i s) (h1 : 1 ≤ l) (hn : u ≤ n) (hi : l ≤ i ∧ i ≤ u)
    (hw : c.Within n l (i - 1) s s') : Split c cmp l u i s' := by
  have hget : ∀ k, i ≤ k → k ≤ u → c.get s' k = c.get s k := fun k hk hu =>
    hw.outside k (by omega) (by omega) (by omega)
  constructor
  · intro k hl hk
    rw [hget i (by omega) hi.2]
    exact hw.forall_get (P := (NotAfter cmp · (c.get s i)))
      (fun k' hl' hk' => hp.low k' hl' (by omega)) k hl (by omega)
  · intro k hk hu
    rw [hget i (by omega) hi.2, hget k (by omega) hu]
    exact hp.high k hk hu

/-- Changes on the right of the split keep it. -/
theorem right (hp : Split c cmp l u i s) (h1 : 1 ≤ l) (hn : u ≤ n) (hi : l ≤ i ∧ i ≤ u)
    (hw : c.Within n (i + 1) u s s') : Split c cmp l u i s' := by
  have hget : ∀ k, l ≤ k → k ≤ i → c.get s' k = c.get s k := fun k hl hk =>
    hw.outside k (by omega) (by omega) (by omega)
  constructor
  · intro k hl hk
    rw [hget i hi.1 (by omega), hget k hl (by omega)]
    exact hp.low k hl hk
  · intro k hk hu
    rw [hget i hi.1 (by omega)]
    exact hw.forall_get (P := NotAfter cmp (c.get s i))
      (fun k' hl' hk' => hp.high k' (by omega) hk') k (by omega) hu

/-- Two sorted parts around a split are sorted together. -/
theorem sortedOn (hc : c.Lawful n V E) (htrans : Transitive cmp E) (hs : V s) (h1 : 1 ≤ l)
    (hn : u ≤ n) (hi : l ≤ i ∧ i ≤ u) (hp : Split c cmp l u i s)
    (hlow : SortedOn c cmp l (i - 1) s) (hhigh : SortedOn c cmp (i + 1) u s) :
    SortedOn c cmp l u s := by
  intro a b ha hab hb
  rcases Int.lt_trichotomy b i with hbi | rfl | hbi
  · exact hlow a b ha hab (by omega)
  · exact hp.low a ha hab
  · rcases Int.lt_trichotomy a i with hai | rfl | hai
    · exact htrans _ _ _ (hc.elem hs (by omega) (by omega)) (hc.elem hs (by omega) (by omega))
        (hc.elem hs (by omega) (by omega)) (hp.low a ha hai) (hp.high b hbi hb)
    · exact hp.high b hbi hb
    · exact hhigh a b (by omega) hab hb

end Split

/-! ### The sort -/

/-- The sort of ranges of at most `size` cells keeps `V`, stays within its range, ends, and leaves
the range sorted where the order is transitive. -/
def SortsRanges (c : Cells σ α) (n : Int) (V Q : σ → Prop) (E : α → Prop)
    (cmp : α → α → Option Bool) (size : Int)
    (sort : Int → Int → σ → (σ → CellSort σ α) → CellSort σ α) : Prop :=
  ∀ l u s next, V s → 1 ≤ l → u ≤ n → u - l + 1 ≤ size →
    (∀ s', V s' → c.Within n l u s s' → (Transitive cmp E → SortedOn c cmp l u s') →
      (next s').Ends cmp V E Q) →
    (sort l u s next).Ends cmp V E Q

section

variable (hc : c.Lawful n V E) (hasymm : Asymmetric cmp E)

include hc hasymm

/-- The parting of a range that has been put in order at its ends and in the middle. -/
theorem split_partition {l u i : Int} {s : σ} (hs : V s) (h1 : 1 ≤ l) (hn : u ≤ n) (hli : l < i)
    (hiu : i < u - 1) (hl : NotAfter cmp (c.get s l) (c.get s i))
    (hu : NotAfter cmp (c.get s i) (c.get s u)) (next : σ → Int → CellSort σ α)
    (hnext : ∀ s' i', V s' → c.Within n l u s s' → l < i' → i' < u → Split c cmp l u i' s' →
      (next s' i').Ends cmp V E Q) :
    (partitionLoop c (c.get s i) l u (fun s i => next (c.swap (u - 1) i s) i) (u - l).toNat l
      (u - 1) (c.swap i (u - 1) s)).Ends cmp V E Q := by
  have hlr : 1 ≤ l ∧ l ≤ n := by omega
  have hir : 1 ≤ i ∧ i ≤ n := by omega
  have hur : 1 ≤ u ∧ u ≤ n := by omega
  have hpr : 1 ≤ u - 1 ∧ u - 1 ≤ n := by omega
  have hs₁ := hc.valid_swap hs hir.1 hir.2 hpr.1 hpr.2
  have hw₁ := hc.within_swap hs h1 hn (i := i) (j := u - 1) (by omega) (by omega)
  have hpivot := hc.get_swap_right hs hir hpr
  have hparted : Parted c cmp (c.get s i) l u l (u - 1) (c.swap i (u - 1) s) := by
    refine ⟨fun k hkl hk => ?_, fun k hk hku => ?_, hpivot⟩
    · obtain rfl : k = l := by omega
      rwa [hc.get_swap_of_ne hs hir hpr hlr (by omega) (by omega)]
    · by_cases hku' : k = u
      · rwa [hku', hc.get_swap_of_ne hs hir hpr hur (by omega) (by omega)]
      · obtain rfl : k = u - 1 := by omega
        rw [hpivot]
        exact hasymm.irrefl (hc.elem hs hir.1 hir.2)
  refine ends_partitionLoop hc hasymm h1 hn _ l (u - 1) _ hs₁ (Int.le_refl l) (by omega) (by omega)
    (by omega) (Int.le_refl _) (by omega) hparted fun s' i' hs' hw hli' hiu' hp => ?_
  have hir' : 1 ≤ i' ∧ i' ≤ n := by omega
  refine hnext _ i' (hc.valid_swap hs' hpr.1 hpr.2 hir'.1 hir'.2)
    ((hw₁.trans hw).trans (hc.within_swap hs' h1 hn (by omega) (by omega))) hli' (by omega) ?_
  -- the pivot comes to its place between the parts
  have hget : c.get (c.swap (u - 1) i' s') i' = c.get s i := by
    rw [hc.get_swap_right hs' hpr hir', hp.pivot_eq]
  constructor
  · intro k hkl hk
    rw [hget, hc.get_swap_of_ne hs' hpr hir' (by omega) (by omega) (by omega)]
    exact hp.low k hkl (by omega)
  · intro k hk hku
    rw [hget]
    by_cases hkp : k = u - 1
    · rw [hkp, hc.get_swap_left hs' hpr hir']
      exact hp.high i' (Int.le_refl i') (by omega)
    · rw [hc.get_swap_of_ne hs' hpr hir' (by omega) hkp (by omega)]
      exact hp.high k (by omega) hku

/-- The rounds of `auxsort`: one part is sorted by a call, which has at most half of the cells,
and the other one by the rounds that follow. -/
theorem ends_auxsortLoop {size : Int}
    {sort : Int → Int → σ → (σ → CellSort σ α) → CellSort σ α}
    (hsort : SortsRanges c n V Q E cmp size sort) {next : σ → CellSort σ α} :
    ∀ (rounds : Nat) (l u : Int) (s : σ), V s → 1 ≤ l → u ≤ n → u - l ≤ 2 * size →
      0 < rounds → u - l < rounds → (∀ s', V s' → c.Within n l u s s' →
        (Transitive cmp E → SortedOn c cmp l u s') → (next s').Ends cmp V E Q) →
      (auxsortLoop c sort rounds l u s next).Ends cmp V E Q
  | rounds + 1, l, u, s, hs, h1, hn, hsize, _, hr, hnext => by
    rw [auxsortLoop]
    by_cases hlu : l < u
    swap
    · rw [if_neg hlu]
      exact hnext s hs (.refl ..) fun _ i j _ _ _ => by omega
    rw [if_pos hlu]
    refine ends_orderEnds hc hasymm hs h1 hn hlu fun s₁ hs₁ hw₁ hle₁ => ?_
    by_cases h2 : u - l = 1
    · rw [if_pos h2]
      refine hnext s₁ hs₁ hw₁ fun _ i j hi hij hj => ?_
      obtain ⟨rfl, rfl⟩ : i = l ∧ j = u := by omega
      exact hle₁
    rw [if_neg h2]
    have hmid : l < (l + u) / 2 ∧ (l + u) / 2 < u := by omega
    refine ends_orderMiddle hc hasymm hs₁ h1 hn hmid.1 hmid.2 hle₁ fun s₂ hs₂ hw₂ hl₂ hu₂ => ?_
    by_cases h3 : u - l = 2
    · rw [if_pos h3]
      refine hnext s₂ hs₂ (hw₁.trans hw₂) fun htrans => ?_
      have hsplit : Split c cmp l u ((l + u) / 2) s₂ := by
        refine ⟨fun k hkl hk => ?_, fun k hk hku => ?_⟩
        · obtain rfl : k = l := by omega
          exact hl₂
        · obtain rfl : k = u := by omega
          exact hu₂
      exact hsplit.sortedOn hc htrans hs₂ h1 hn (by omega) (fun i j _ _ _ => by omega)
        fun i j _ _ _ => by omega
    rw [if_neg h3]
    refine split_partition hc hasymm hs₂ h1 hn hmid.1 (by omega) hl₂ hu₂
      (fun s i => if i - l < u - i then
        sort l (i - 1) s fun s => auxsortLoop c sort rounds (i + 1) u s next
        else sort (i + 1) u s fun s => auxsortLoop c sort rounds l (i - 1) s next)
      fun s₃ i hs₃ hw₃ hli hiu hp₃ => ?_
    have hw₃' := (hw₁.trans hw₂).trans hw₃
    split_ifs with hsmall
    · -- the left part is sorted first
      refine hsort l (i - 1) s₃ _ hs₃ h1 (by omega) (by omega) fun s₄ hs₄ hw₄ hsort₄ => ?_
      refine ends_auxsortLoop hsort rounds (i + 1) u s₄ hs₄ (by omega) hn (by omega) (by omega)
        (by omega) fun s₅ hs₅ hw₅ hsort₅ => ?_
      refine hnext s₅ hs₅ ((hw₃'.trans (hw₄.mono (Int.le_refl l) (by omega) h1 hn)).trans
        (hw₅.mono (by omega) (Int.le_refl u) h1 hn)) fun htrans => ?_
      have hp₅ := (hp₃.left h1 hn (by omega) hw₄).right h1 hn (by omega) hw₅
      refine hp₅.sortedOn hc htrans hs₅ h1 hn (by omega) ?_ (hsort₅ htrans)
      intro a b ha hab hb
      rw [hw₅.outside a (by omega) (by omega) (by omega),
        hw₅.outside b (by omega) (by omega) (by omega)]
      exact hsort₄ htrans a b ha hab hb
    · refine hsort (i + 1) u s₃ _ hs₃ (by omega) hn (by omega) fun s₄ hs₄ hw₄ hsort₄ => ?_
      refine ends_auxsortLoop hsort rounds l (i - 1) s₄ hs₄ h1 (by omega) (by omega) (by omega)
        (by omega) fun s₅ hs₅ hw₅ hsort₅ => ?_
      refine hnext s₅ hs₅ ((hw₃'.trans (hw₄.mono (by omega) (Int.le_refl u) h1 hn)).trans
        (hw₅.mono (Int.le_refl l) (by omega) h1 hn)) fun htrans => ?_
      have hp₅ := (hp₃.right h1 hn (by omega) hw₄).left h1 hn (by omega) hw₅
      refine hp₅.sortedOn hc htrans hs₅ h1 hn (by omega) (hsort₅ htrans) ?_
      intro a b ha hab hb
      rw [hw₅.outside a (by omega) (by omega) (by omega),
        hw₅.outside b (by omega) (by omega) (by omega)]
      exact hsort₄ htrans a b ha hab hb

/-- A call with `depth` levels left sorts ranges of fewer than `2 ^ depth` cells. -/
theorem sortsRanges_auxsort : ∀ depth : Nat, 0 < depth →
    SortsRanges c n V Q E cmp (2 ^ depth - 1) (auxsort c depth)
  | depth + 1, _ => by
    intro l u s next hs h1 hn hsize hnext
    rw [auxsort]
    cases depth with
    | zero =>
      -- one cell or none, so there is nothing to do
      rw [auxsortLoop, if_neg (by omega)]
      exact hnext s hs (.refl ..) fun _ i j _ _ _ => by omega
    | succ depth =>
      have hpow := Int.pow_succ 2 (depth + 1)
      exact ends_auxsortLoop hc hasymm (sortsRanges_auxsort (depth + 1) (Nat.succ_pos _)) _ l u s hs
        h1 hn (by omega) (by omega) (by omega) hnext

/-- The sort of the cells `1..m`. -/
theorem ends_tableSort {depth m : Nat} (hm : n = m) (hpos : 0 < depth) (hdepth : m < 2 ^ depth)
    {s : σ} (hs : V s) :
    (tableSort c depth m s).Ends cmp V E fun s' =>
      V s' ∧ c.Within m 1 m s s' ∧ (Transitive cmp E → SortedOn c cmp 1 m s') := by
  subst hm
  have hpow : (m : Int) + 1 ≤ 2 ^ depth := by exact_mod_cast hdepth
  exact sortsRanges_auxsort hc hasymm depth hpos 1 m s .done hs (Int.le_refl 1) (Int.le_refl _)
    (by omega) fun s' hs' hw hsorted => ⟨hs', hw, hsorted⟩

end

end LuaBinaryTable
