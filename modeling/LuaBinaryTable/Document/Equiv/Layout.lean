import LuaBinaryTable.Document.Layout
import LuaBinaryTable.Lua.Acyclic

/-!
# Facts about layouts

What `writeTable` writes of a table are its keys and values, or `nil` in place of a hole
(`mem_items`), so the layout of a value depends on no more fuel than the nesting of the value is
deep (`layout_fuel`, `layout_ne_deep`), and a complete layout on no more than it took
(`layout_of_complete`).
-/

namespace LuaBinaryTable

variable {env : Env} {t : LuaTable}

/-- What a table holds under any key is a value of it, or `nil`. -/
theorem get_eq_nil_or (t : LuaTable) (k : LuaValue) :
    t.get k = .nil ∨ ∃ e ∈ t.entries, t.get k = e.2 := by
  by_cases hn : t.get k = .nil
  · exact Or.inl hn
  · obtain ⟨e, he, _, hv⟩ := Entries.exists_of_lookup_ne_nil hn
    exact Or.inr ⟨e, he, hv⟩

theorem mem_elements {v : LuaValue} : ∀ {n i : Nat}, v ∈ t.elements i n →
    v = .nil ∨ ∃ e ∈ t.entries, v = e.2
  | n + 1, i, h => by
    rw [LuaTable.elements, List.mem_cons] at h
    rcases h with rfl | h
    · exact get_eq_nil_or t _
    · exact mem_elements h

/-- The keys that the sort leaves are those of the table. -/
theorem sortedKeys_perm (hperm : env.sort.Permutes) {ks : List LuaValue}
    (h : t.sortedKeys env = some ks) : ks.Perm t.keys := by
  unfold LuaTable.sortedKeys at h
  split at h
  · rename_i ks' hr
    cases h
    exact hperm _ _ _ hr
  · cases h

theorem mem_alternate {ks : List LuaValue} (hks : ks.Perm t.keys) {v : LuaValue}
    (h : v ∈ t.alternate ks) : ∃ e ∈ t.entries, v = e.1 ∨ v = e.2 := by
  obtain ⟨k, hk, hv⟩ := List.mem_flatMap.mp h
  obtain ⟨e, he, rfl⟩ := List.mem_map.mp (hks.subset hk)
  refine ⟨e, he, ?_⟩
  rw [LuaTable.get_of_mem t he] at hv
  simpa using hv

/-! ### The items of a table -/

/-- The values that `writeTable` writes: the elements up to the border of an array, or all keys and
values. -/
def LuaTable.items (t : LuaTable) : List LuaValue :=
  if t.entries.length = t.border then t.elements 1 t.entries.length
  else t.entries.flatMap fun e => [e.1, e.2]

/-- A table without entries has the border 0. -/
theorem border_eq_zero (hz : t.entries.length = 0) : t.border = 0 := by
  by_contra hb
  apply t.border_legal.2.1 hb
  rw [List.length_eq_zero_iff.mp hz]
  rfl

theorem mem_alternate_iff {ks : List LuaValue} (hks : ks.Perm t.keys) {v : LuaValue} :
    v ∈ t.alternate ks ↔ ∃ e ∈ t.entries, v = e.1 ∨ v = e.2 := by
  refine ⟨mem_alternate hks, ?_⟩
  rintro ⟨e, he, hv⟩
  refine List.mem_flatMap.mpr ⟨e.1, hks.mem_iff.mpr (List.mem_map_of_mem he), ?_⟩
  rw [t.get_of_mem he]
  simpa using hv

theorem mem_items {w : LuaValue} (hw : w ∈ t.items) :
    (w = .nil ∧ t.entries ≠ []) ∨ ∃ e ∈ t.entries, w = e.1 ∨ w = e.2 := by
  unfold LuaTable.items at hw
  split_ifs at hw with harray
  · rcases mem_elements hw with hnil | ⟨e, he, hv⟩
    · refine Or.inl ⟨hnil, fun hes => ?_⟩
      rw [hes] at hw
      cases hw
    · exact Or.inr ⟨e, he, Or.inr hv⟩
  · obtain ⟨e, he, hv⟩ := List.mem_flatMap.mp hw
    exact Or.inr ⟨e, he, by simpa using hv⟩

/-- The layout of a table is complete where those of its items are and the keys can be sorted. -/
theorem complete_layoutTable_iff (hperm : env.sort.Permutes) (lay : LuaValue → Doc) :
    (layoutTable env lay t).Complete ↔
      (t.entries.length ≠ t.border → t.sortedKeys env ≠ none) ∧
        ∀ w ∈ t.items, (lay w).Complete := by
  rw [layoutTable, LuaTable.items]
  by_cases hz : t.entries.length = 0
  · have hb := border_eq_zero hz
    rw [if_pos hz, hz, hb]
    exact iff_of_true rfl ⟨fun hne => absurd rfl hne, by simp [LuaTable.elements]⟩
  · rw [if_neg hz]
    -- an array is not sorted, so nothing is asked of its keys
    by_cases harray : t.entries.length = t.border
    · rw [if_pos harray, if_pos harray, Doc.Complete, Doc.stops, Doc.stopsItems_eq_none,
        List.forall_mem_map]
      exact (and_iff_right fun hne => absurd harray hne).symm
    · rw [if_neg harray, if_neg harray, Doc.Complete, Doc.stops]
      cases hks : t.sortedKeys env with
      | none => exact iff_of_false (by simp [Doc.stopsItems, Doc.stops]) fun hc => hc.1 harray rfl
      | some ks =>
        have hmem : ∀ w, w ∈ t.alternate ks ↔ w ∈ t.entries.flatMap fun e => [e.1, e.2] := by
          intro w
          rw [mem_alternate_iff (sortedKeys_perm hperm hks), List.mem_flatMap]
          simp
        rw [Doc.stopsItems_eq_none, List.forall_mem_map]
        simp only [hmem]
        exact (and_iff_right fun _ => by simp).symm

/-- Layouts of the items of a table that agree give the same layout of the table. -/
theorem layoutTable_congr_items (hperm : env.sort.Permutes) {lay lay' : LuaValue → Doc}
    (h : ∀ w ∈ t.items, lay w = lay' w) : layoutTable env lay t = layoutTable env lay' t := by
  unfold layoutTable
  unfold LuaTable.items at h
  split_ifs at h ⊢ with hz ha
  · rfl
  · rfl
  · rw [List.map_congr_left h]
  · cases hks : t.sortedKeys env with
    | none => rfl
    | some ks =>
      simp only
      rw [List.map_congr_left fun w hw => h w ?_]
      obtain ⟨e, he, hv⟩ := mem_alternate (sortedKeys_perm hperm hks) hw
      exact List.mem_flatMap.mpr ⟨e, he, by simpa using hv⟩

/-- Layouts of the keys and values of a table that agree give the same layout of the table. -/
theorem layoutTable_congr (hperm : env.sort.Permutes) {lay lay' : LuaValue → Doc}
    (hnil : t.entries ≠ [] → lay .nil = lay' .nil)
    (h : ∀ e ∈ t.entries, lay e.1 = lay' e.1 ∧ lay e.2 = lay' e.2) :
    layoutTable env lay t = layoutTable env lay' t := by
  refine layoutTable_congr_items hperm fun w hw => ?_
  rcases mem_items hw with ⟨rfl, hne⟩ | ⟨e, he, rfl | rfl⟩
  · exact hnil hne
  · exact (h e he).1
  · exact (h e he).2

/-! ### Fuel -/

variable {h₀ : List LuaTable}

/-- With more fuel than the nesting is deep, the fuel does not matter. -/
theorem layout_fuel (hperm : env.sort.Permutes) : ∀ {fuel fuel' : Nat} {v : LuaValue},
    Nested h₀ fuel v → fuel ≤ fuel' → layout env h₀ fuel' v = layout env h₀ fuel v
  | fuel + 1, fuel' + 1, v, hn, hle => by
    cases v with
    | table ref =>
      obtain ⟨t, ht, hes⟩ := hn
      simp only [layout, ht]
      have hle' := Nat.le_of_succ_le_succ hle
      refine layoutTable_congr hperm (fun hne => ?_) fun e he =>
        ⟨layout_fuel hperm (hes e he).1 hle', layout_fuel hperm (hes e he).2 hle'⟩
      -- the table has an entry, so there is fuel for it
      obtain ⟨e, es, hcons⟩ := List.exists_cons_of_ne_nil hne
      have hfuel := (hes e (by rw [hcons]; exact List.mem_cons_self ..)).1
      cases fuel with
      | zero => exact hfuel.elim
      | succ fuel =>
        obtain ⟨fuel', rfl⟩ := Nat.exists_eq_succ_of_ne_zero (Nat.ne_of_gt
          (Nat.lt_of_lt_of_le (Nat.succ_pos fuel) hle'))
        rfl
    | _ => rfl

theorem stopsItems_map {lay : LuaValue → Doc} {vs : List LuaValue} {w : Stop}
    (h : Doc.stopsItems (vs.map lay) = some w) : ∃ v ∈ vs, (lay v).stops = some w := by
  induction vs with
  | nil => cases h
  | cons v vs ih =>
    rw [List.map_cons, Doc.stopsItems] at h
    cases hv : (lay v).stops with
    | some w' =>
      rw [hv] at h
      exact ⟨v, List.mem_cons_self .., hv.trans h⟩
    | none =>
      rw [hv] at h
      obtain ⟨u, hu, hs⟩ := ih h
      exact ⟨u, List.mem_cons_of_mem _ hu, hs⟩

/-- A table breaks off where one of its values does, or its keys cannot be sorted. -/
theorem stops_layoutTable (hperm : env.sort.Permutes) {lay : LuaValue → Doc} {w : Stop}
    (h : (layoutTable env lay t).stops = some w) :
    w = .unsortable ∨ (t.entries ≠ [] ∧ (lay .nil).stops = some w) ∨
      ∃ e ∈ t.entries, (lay e.1).stops = some w ∨ (lay e.2).stops = some w := by
  unfold layoutTable at h
  split_ifs at h with hz ha
  · cases h
  · obtain ⟨v, hv, hs⟩ := stopsItems_map h
    rcases mem_elements hv with rfl | ⟨e, he, rfl⟩
    · exact Or.inr (Or.inl ⟨fun hes => hz (by rw [hes]; rfl), hs⟩)
    · exact Or.inr (Or.inr ⟨e, he, Or.inr hs⟩)
  · cases hks : t.sortedKeys env with
    | none =>
      rw [hks] at h
      exact Or.inl (Option.some.inj h).symm
    | some ks =>
      rw [hks] at h
      obtain ⟨v, hv, hs⟩ := stopsItems_map h
      obtain ⟨e, he, rfl | rfl⟩ := mem_alternate (sortedKeys_perm hperm hks) hv
      · exact Or.inr (Or.inr ⟨e, he, Or.inl hs⟩)
      · exact Or.inr (Or.inr ⟨e, he, Or.inr hs⟩)

/-- With more fuel than the nesting is deep, no nesting exceeds it. -/
theorem layout_ne_deep (hperm : env.sort.Permutes) : ∀ {fuel : Nat} {v : LuaValue},
    Nested h₀ fuel v → (layout env h₀ fuel v).stops ≠ some .deep
  | fuel + 1, v, hn => by
    cases v with
    | table ref =>
      obtain ⟨t, ht, hes⟩ := hn
      simp only [layout, ht]
      intro hd
      rcases stops_layoutTable hperm hd with hw | ⟨hne, hs⟩ | ⟨e, he, hs | hs⟩
      · cases hw
      · obtain ⟨e, es, hcons⟩ := List.exists_cons_of_ne_nil hne
        have hfuel := (hes e (by rw [hcons]; exact List.mem_cons_self ..)).1
        cases fuel with
        | zero => exact hfuel.elim
        | succ fuel => cases hs
      · exact layout_ne_deep hperm (hes e he).1 hs
      · exact layout_ne_deep hperm (hes e he).2 hs
    | number x =>
      simp only [layout]
      split_ifs <;> simp [Doc.stops]
    | _ => simp [layout, Doc.stops]

/-- A complete layout does not change with more fuel. -/
theorem layout_of_complete (hperm : env.sort.Permutes) : ∀ {fuel fuel' : Nat} {v : LuaValue},
    (layout env h₀ fuel v).Complete → fuel ≤ fuel' → layout env h₀ fuel' v = layout env h₀ fuel v
  | 0, _, _, hc, _ => by cases hc
  | fuel + 1, fuel' + 1, v, hc, hle => by
    cases v with
    | table ref =>
      simp only [layout] at hc ⊢
      cases ht : h₀[ref]? with
      | none => rfl
      | some t =>
        rw [ht] at hc
        have hitems := ((complete_layoutTable_iff hperm _).mp hc).2
        exact layoutTable_congr_items hperm fun w hw =>
          layout_of_complete hperm (hitems w hw) (Nat.le_of_succ_le_succ hle)
    | _ => rfl

end LuaBinaryTable
