import LuaBinaryTable.Lua.State

/-!
# Runs with more fuel

`x.Below y`: the run `y` is `x`, unless `x` has run out of fuel.  A recursion that is given more
fuel comes above what it was, since all the sequences that it is made of do.
-/

namespace LuaBinaryTable

namespace Run

variable {σ α β : Type} {x y z : Run σ α}

def Below (x y : Run σ α) : Prop := x = diverges ∨ x = y

namespace Below

theorem refl (x : Run σ α) : x.Below x := Or.inr rfl

theorem trans (hxy : x.Below y) (hyz : y.Below z) : x.Below z := by
  rcases hxy with hx | rfl
  · exact Or.inl hx
  · exact hyz

theorem bind {f g : α → Run σ β} (hxy : x.Below y) (hfg : ∀ a, (f a).Below (g a)) :
    (x >>= f).Below (y >>= g) := by
  rcases hxy with rfl | rfl
  · exact Or.inl rfl
  · cases x with
    | returns a => exact hfg a
    | raises s => exact refl _
    | diverges => exact refl _

theorem eq_of_returns {a : α} (hxy : x.Below y) (hx : x = returns a) : y = returns a := by
  rcases hxy with h | rfl
  · rw [h] at hx
    cases hx
  · exact hx

end Below

end Run

end LuaBinaryTable
