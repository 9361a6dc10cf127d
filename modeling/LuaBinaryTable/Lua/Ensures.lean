import LuaBinaryTable.Lua.State

/-!
# What a run ensures

`Ensures P R` is the postcondition of a run that may end in an error: `P` of what it returns, and
`R` of the state in which an error escapes.  It says nothing of a run that diverges.
-/

namespace LuaBinaryTable

namespace Run

variable {σ τ α β : Type} {P P' : α → Prop} {R R' : σ → Prop} {x : Run σ α}

def Ensures (P : α → Prop) (R : σ → Prop) : Run σ α → Prop
  | returns a => P a
  | raises s => R s
  | diverges => True

theorem bind_assoc {γ : Type} (x : Run σ α) (f : α → Run σ β) (g : β → Run σ γ) :
    ((x >>= f) >>= g) = (x >>= fun a => f a >>= g) := by
  cases x <;> rfl

namespace Ensures

theorem imp (hx : x.Ensures P R) (hP : ∀ a, P a → P' a) (hR : ∀ s, R s → R' s) :
    x.Ensures P' R' := by
  cases x with
  | returns a => exact hP a hx
  | raises s => exact hR s hx
  | diverges => trivial

/-- A sequence ensures what its second part ensures after the first one. -/
theorem bind {Q : β → Prop} {f : α → Run σ β} (hx : x.Ensures P R)
    (hf : ∀ a, P a → (f a).Ensures Q R) : (x >>= f).Ensures Q R := by
  cases x with
  | returns a => exact hf a hx
  | raises s => exact hx
  | diverges => trivial

/-- What the first part of a sequence is known to return may be used for the second one. -/
theorem bind_of_returns {Q : β → Prop} {f : α → Run σ β} (hx : x.Ensures P R)
    (hR : ∀ s, R s → R' s) (hf : ∀ a, x = returns a → P a → (f a).Ensures Q R') :
    (x >>= f).Ensures Q R' := by
  cases x with
  | returns a => exact hf a rfl hx
  | raises s => exact hR s hx
  | diverges => trivial

end Ensures

end Run

end LuaBinaryTable
