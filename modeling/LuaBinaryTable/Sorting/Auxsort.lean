import LuaBinaryTable.Sorting.Cells

/-!
# The quicksort of `ltablib.c`

`auxsort` sorts the cells `l..u` in place.  It is generic in the store, the table being sorted with
`lua_rawgeti` and `lua_rawseti`, and it asks the comparator through `CellSort.compare`, where
`sort_comp` calls it.  Each call of `set2` stores the two values read just before in each other's
cell, which is `Cells.swap`.

The loops take fuel that they cannot use up: the two scans leave by the error `invalid order
function for sorting` behind the ends of the range.  `depth` bounds the nesting of the recursive
calls and `rounds` the turns of `while (l < u)`.
-/

namespace LuaBinaryTable

variable {σ α : Type} (c : Cells σ α)

/-- `while (lua_rawgeti(L, 1, ++i), sort_comp(L, -1, -2))`: the first cell behind `i` that is not
less than the pivot. -/
def scanUp (pivot : α) (u : Int) (s : σ) (next : Int → CellSort σ α) : Nat → Int → CellSort σ α
  | 0, _ => .diverges
  | fuel + 1, i =>
    .compare s (c.get s (i + 1)) pivot fun less =>
      if less then
        if i + 1 > u then .invalid s else scanUp pivot u s next fuel (i + 1)
      else next (i + 1)

/-- `while (lua_rawgeti(L, 1, --j), sort_comp(L, -3, -1))`: the last cell before `j` that the pivot
is not less than. -/
def scanDown (pivot : α) (l : Int) (s : σ) (next : Int → CellSort σ α) : Nat → Int → CellSort σ α
  | 0, _ => .diverges
  | fuel + 1, j =>
    .compare s pivot (c.get s (j - 1)) fun less =>
      if less then
        if j - 1 < l then .invalid s else scanDown pivot l s next fuel (j - 1)
      else next (j - 1)

/-- The loop `for (;;)` that parts the cells between `i` and `j` around the pivot. -/
def partitionLoop (pivot : α) (l u : Int) (next : σ → Int → CellSort σ α) :
    Nat → Int → Int → σ → CellSort σ α
  | 0, _, _, _ => .diverges
  | fuel + 1, i, j, s =>
    scanUp c pivot u s (fun i =>
      scanDown c pivot l s (fun j =>
        if j < i then next s i else partitionLoop pivot l u next fuel i j (c.swap i j s))
        (j + 1 - l).toNat j)
      (u + 1 - i).toNat i

/-- The first two comparisons: `a[l]` and `a[u]` in order. -/
def orderEnds (l u : Int) (s : σ) (next : σ → CellSort σ α) : CellSort σ α :=
  .compare s (c.get s u) (c.get s l) fun less => next (if less then c.swap l u s else s)

/-- The middle cell put in order between `a[l]` and `a[u]`. -/
def orderMiddle (l i u : Int) (s : σ) (next : σ → CellSort σ α) : CellSort σ α :=
  .compare s (c.get s i) (c.get s l) fun less =>
    if less then next (c.swap i l s)
    else .compare s (c.get s u) (c.get s i) fun less => next (if less then c.swap i u s else s)

/-- The loop `while (l < u)`, with the recursive call as a parameter. -/
def auxsortLoop (auxsort : Int → Int → σ → (σ → CellSort σ α) → CellSort σ α) :
    Nat → Int → Int → σ → (σ → CellSort σ α) → CellSort σ α
  | 0, _, _, _, _ => .diverges
  | rounds + 1, l, u, s, next =>
    if l < u then
      -- sort elements a[l], a[(l+u)/2] and a[u]
      orderEnds c l u s fun s =>
      if u - l = 1 then next s
      else
        let i := (l + u) / 2
        orderMiddle c l i u s fun s =>
        if u - l = 2 then next s
        else
          let pivot := c.get s i
          let s := c.swap i (u - 1) s
          partitionLoop c pivot l u (fun s i =>
            -- swap pivot (a[u-1]) with a[i]
            let s := c.swap (u - 1) i s
            -- the smaller part is sorted by a call, the larger one by the next round
            if i - l < u - i then
              auxsort l (i - 1) s fun s => auxsortLoop auxsort rounds (i + 1) u s next
            else auxsort (i + 1) u s fun s => auxsortLoop auxsort rounds l (i - 1) s next)
            (u - l).toNat l (u - 1) s
    else next s

/-- The recursive calls of `auxsort`, on the cells `l..u`. -/
def auxsort : Nat → Int → Int → σ → (σ → CellSort σ α) → CellSort σ α
  | 0, _, _, _, _ => .diverges
  | depth + 1, l, u, s, next => auxsortLoop c (auxsort depth) ((u - l).toNat + 1) l u s next

/-- `sort`, on the cells `1..n`. -/
def tableSort (depth n : Nat) (s : σ) : CellSort σ α := auxsort c depth 1 n s .done

end LuaBinaryTable
