import LuaBinaryTable.Lua.Table

/-!
# Growing heaps

What a run does to the tables of its caller: `Grows` leaves them all as they are, `GrowsExcept` all
but one.
-/

namespace LuaBinaryTable

/-- The heap grows from `h` to `h'`, and the tables of `h` other than the one at `ref` stay. -/
structure GrowsExcept (ref : Nat) (h h' : List LuaTable) : Prop where
  length_le : h.length ≤ h'.length
  old : ∀ i, i < h.length → i ≠ ref → h'[i]? = h[i]?

/-- The heap grows from `h` to `h'`. -/
structure Grows (h h' : List LuaTable) : Prop where
  length_le : h.length ≤ h'.length
  old : ∀ i, i < h.length → h'[i]? = h[i]?

theorem Grows.refl (h : List LuaTable) : Grows h h := ⟨le_rfl, fun _ _ => rfl⟩

theorem Grows.trans {h h' h'' : List LuaTable} (h1 : Grows h h') (h2 : Grows h' h'') :
    Grows h h'' :=
  ⟨h1.length_le.trans h2.length_le, fun i hi =>
    (h2.old i (hi.trans_le h1.length_le)).trans (h1.old i hi)⟩

theorem Grows.append (h ts : List LuaTable) : Grows h (h ++ ts) :=
  ⟨by simp, fun _ hi => List.getElem?_append_left hi⟩

theorem Grows.exists_append {h h' : List LuaTable} (hg : Grows h h') : ∃ ts, h' = h ++ ts := by
  refine ⟨h'.drop h.length, List.ext_getElem? fun i => ?_⟩
  rcases Nat.lt_or_ge i h.length with hi | hi
  · rw [hg.old i hi, List.getElem?_append_left hi]
  · rw [List.getElem?_append_right hi, List.getElem?_drop, Nat.add_sub_cancel' hi]

theorem GrowsExcept.refl (ref : Nat) (h : List LuaTable) : GrowsExcept ref h h :=
  ⟨le_rfl, fun _ _ _ => rfl⟩

theorem GrowsExcept.trans {ref : Nat} {h h' h'' : List LuaTable} (h1 : GrowsExcept ref h h')
    (h2 : GrowsExcept ref h' h'') : GrowsExcept ref h h'' :=
  ⟨h1.length_le.trans h2.length_le, fun i hi hne =>
    (h2.old i (hi.trans_le h1.length_le) hne).trans (h1.old i hi hne)⟩

theorem Grows.except {h h' : List LuaTable} (ref : Nat) (hg : Grows h h') : GrowsExcept ref h h' :=
  ⟨hg.length_le, fun i hi _ => hg.old i hi⟩

theorem GrowsExcept.modify (ref : Nat) (h : List LuaTable) (f : LuaTable → LuaTable) :
    GrowsExcept ref h (h.modify ref f) :=
  ⟨by simp, fun i _ hne => List.getElem?_modify_ne f h (Ne.symm hne)⟩

/-- A new table and what is then done to it leave the old tables alone. -/
theorem GrowsExcept.grows {h h' : List LuaTable} {t : LuaTable}
    (hg : GrowsExcept h.length (h ++ [t]) h') : Grows h h' := by
  refine ⟨le_trans (by simp) hg.length_le, fun i hi => ?_⟩
  rw [hg.old i (by simp; omega) (by omega), List.getElem?_append_left hi]

end LuaBinaryTable
