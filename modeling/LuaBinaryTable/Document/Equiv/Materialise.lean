import LuaBinaryTable.Document.Materialise
import LuaBinaryTable.Lua.Heap

/-!
# What `materialise` leaves alone

A document is built from tables at the end of the heap, so the tables that were there stay as they
are.
-/

namespace LuaBinaryTable

namespace Doc

mutual

theorem grows_materialise : ∀ (d : Doc) (h : List LuaTable), Grows h (d.materialise h).2
  | nil, h => Grows.refl h
  | boolean _, h => Grows.refl h
  | integer _, h => Grows.refl h
  | double _, h => Grows.refl h
  | string _, h => Grows.refl h
  | emptyTable, h => Grows.append h _
  | array _ items, h => (grows_fillArray h.length items 0 _).grows
  | table _ items, h => (grows_fillTable h.length items _).grows
  | stop _, h => Grows.refl h

theorem grows_fillArray (ref : Nat) : ∀ (ds : List Doc) (i : Nat) (h : List LuaTable),
    GrowsExcept ref h (fillArray ref ds i h)
  | [], _, h => GrowsExcept.refl ref h
  | d :: ds, i, h =>
    ((grows_materialise d h).except ref).trans
      ((GrowsExcept.modify ref _ _).trans (grows_fillArray ref ds (i + 1) _))

theorem grows_fillTable (ref : Nat) : ∀ (ds : List Doc) (h : List LuaTable),
    GrowsExcept ref h (fillTable ref ds h)
  | [], h => GrowsExcept.refl ref h
  | [_], h => GrowsExcept.refl ref h
  | k :: v :: ds, h =>
    ((grows_materialise k h).except ref).trans
      (((grows_materialise v _).except ref).trans
        ((GrowsExcept.modify ref _ _).trans (grows_fillTable ref ds _)))

end

mutual

/-- A document that the decoder completes does not break off. -/
theorem complete_of_outcome (sizes : TableSizes) : ∀ (d : Doc), d.outcome sizes = .complete →
    d.Complete
  | nil, _ | boolean _, _ | integer _, _ | double _, _ | string _, _ | emptyTable, _ => rfl
  | array _ items, h => by
    rw [outcome] at h
    split_ifs at h
    exact stopsItems_of_outcomeItems sizes items h
  | table _ items, h => by
    rw [outcome] at h
    split_ifs at h
    exact stopsItems_of_outcomeEntries sizes items h
  | stop why, h => by cases why <;> cases h

theorem stopsItems_of_outcomeItems (sizes : TableSizes) : ∀ (ds : List Doc),
    outcomeItems sizes ds = .complete → stopsItems ds = none
  | [], _ => rfl
  | d :: ds, h => by
    rw [outcomeItems, Outcome.andThen_eq_complete] at h
    rw [stopsItems, complete_of_outcome sizes d h.1, stopsItems_of_outcomeItems sizes ds h.2]
    rfl

theorem stopsItems_of_outcomeEntries (sizes : TableSizes) : ∀ (ds : List Doc),
    outcomeEntries sizes ds = .complete → stopsItems ds = none
  | [], _ => rfl
  | [k], h => by
    rw [stopsItems, complete_of_outcome sizes k h]
    rfl
  | k :: v :: ds, h => by
    rw [outcomeEntries, Outcome.andThen_eq_complete, Outcome.andThen_eq_complete] at h
    obtain ⟨hk, hv, hds⟩ := h
    split_ifs at hds
    rw [stopsItems, complete_of_outcome sizes k hk, stopsItems, complete_of_outcome sizes v hv,
      stopsItems_of_outcomeEntries sizes ds hds]
    rfl

end

/-- A completed document has its value on the stack. -/
theorem one_le_slots {sizes : TableSizes} {d : Doc} (h : d.outcome sizes = .complete) :
    1 ≤ d.slots sizes := by
  cases d with
  | array size items =>
    rw [outcome] at h
    split_ifs at h with hs
    rw [slots, if_pos hs]
    omega
  | table size items =>
    rw [outcome] at h
    split_ifs at h with hs
    rw [slots, if_pos hs]
    omega
  | stop why => cases why <;> cases h
  | _ => exact le_rfl

/-- The value of a document is a key of a table exactly where the document is one. -/
theorem isKey_materialise (d : Doc) (h : List LuaTable) : (d.materialise h).1.isKey = d.isKey := by
  cases d <;> rfl

end Doc

end LuaBinaryTable
