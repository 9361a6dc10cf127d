import LuaBinaryTable.Document.Encode
import LuaBinaryTable.Document.Equiv.Layout
import LuaBinaryTable.Document.Legal
import LuaBinaryTable.Lua.Border

/-!
# Values that the format can hold

A `Storable` value is acyclic, its strings are short, and its tables are not too large.  Its
complete layouts are documents that the format can hold (`encodable_layout`) and that the decoder
does not refuse (`legal_layout`).  In a `Portable` value the integral numbers fit 64 bits and the
tables are contiguous as well, so that nothing of it is lost.
-/

namespace LuaBinaryTable

open LuaValue

/-- An acyclic value whose integral numbers are 64-bit integers, whose strings are shorter than
`2^16`, and whose tables are contiguous and have fewer than `limit` entries.  An infinity counts as
integral, as it does in the encoder. -/
inductive Portable (limit : Nat) (h : List LuaTable) : LuaValue → Prop
  | scalar {v : LuaValue} (hv : v.type ≠ .table)
      (hnum : ∀ x, v = .number x → x.isIntegral = true → Binary64.InInt64 x.trunc)
      (hstr : ∀ s, v = .string s → s.length < 2 ^ 16) : Portable limit h v
  | table {ref : Nat} {t : LuaTable} (ht : h[ref]? = some t) (size : t.entries.length < limit)
      (contiguous : t.Contiguous) (keys : ∀ e ∈ t.entries, Portable limit h e.1)
      (values : ∀ e ∈ t.entries, Portable limit h e.2) : Portable limit h (.table ref)

/-- An acyclic value whose strings are shorter than `2^16` and whose tables have fewer than `limit`
entries. -/
inductive Storable (limit : Nat) (h : List LuaTable) : LuaValue → Prop
  | scalar {v : LuaValue} (hv : v.type ≠ .table) (hstr : ∀ s, v = .string s → s.length < 2 ^ 16) :
      Storable limit h v
  | table {ref : Nat} {t : LuaTable} (ht : h[ref]? = some t) (size : t.entries.length < limit)
      (keys : ∀ e ∈ t.entries, Storable limit h e.1)
      (values : ∀ e ∈ t.entries, Storable limit h e.2) : Storable limit h (.table ref)

variable {limit : Nat} {h₀ : List LuaTable} {env : Env} {v : LuaValue}

theorem Storable.acyclic (hp : Storable limit h₀ v) : Acyclic h₀ v := by
  induction hp with
  | scalar hv => exact .scalar hv
  | table ht _ _ _ ihk ihv => exact .table ht ihk ihv

theorem Portable.storable (hp : Portable limit h₀ v) : Storable limit h₀ v := by
  induction hp with
  | scalar hv _ hstr => exact .scalar hv hstr
  | table ht size _ _ _ ihk ihv => exact .table ht size ihk ihv

theorem Portable.acyclic (hp : Portable limit h₀ v) : Acyclic h₀ v := hp.storable.acyclic

theorem portable_nil : Portable limit h₀ .nil := .scalar (by simp [type]) (by simp) (by simp)

theorem storable_nil : Storable limit h₀ .nil := portable_nil.storable

theorem Portable.integral {x : Binary64} (hp : Portable limit h₀ (.number x))
    (hx : x.isIntegral = true) : Binary64.InInt64 x.trunc := by
  cases hp with
  | scalar _ hnum => exact hnum x rfl hx

theorem Storable.short {s : Bytes} (hp : Storable limit h₀ (.string s)) : s.length < 2 ^ 16 := by
  cases hp with
  | scalar _ hstr => exact hstr s rfl

theorem Portable.exists_table {ref : Nat} (hp : Portable limit h₀ (.table ref)) :
    ∃ t, h₀[ref]? = some t ∧ t.entries.length < limit ∧ t.Contiguous ∧
      (∀ e ∈ t.entries, Portable limit h₀ e.1) ∧ ∀ e ∈ t.entries, Portable limit h₀ e.2 := by
  cases hp with
  | scalar hv => exact absurd rfl hv
  | table ht size hc hk hv => exact ⟨_, ht, size, hc, hk, hv⟩

theorem Storable.exists_table {ref : Nat} (hp : Storable limit h₀ (.table ref)) :
    ∃ t, h₀[ref]? = some t ∧ t.entries.length < limit ∧
      (∀ e ∈ t.entries, Storable limit h₀ e.1) ∧ ∀ e ∈ t.entries, Storable limit h₀ e.2 := by
  cases hp with
  | scalar hv => exact absurd rfl hv
  | table ht size hk hv => exact ⟨_, ht, size, hk, hv⟩

/-- Rounding an integral number changes nothing of its value. -/
theorem Binary64.trunc_round {x : Binary64} (hx : x.isIntegral = true) :
    x.round.trunc = x.trunc := by
  have heq : x.equal x.round = true := hx
  simp only [equal, Bool.and_eq_true, decide_eq_true_eq] at heq
  rw [trunc, trunc, heq.2]

/-- The cast of an integral number in range is its value. -/
theorem castInt64_round {x : Binary64} (hx : x.isIntegral = true)
    (hr : Binary64.InInt64 x.trunc) : castInt64 env x.round = x.trunc := by
  rw [castInt64, Binary64.trunc_round hx, if_pos hr]

/-- What the encoder casts to an integer fits 64 bits. -/
theorem inInt64_castInt64 (x : Binary64) : Binary64.InInt64 (castInt64 env x) := by
  rw [castInt64]
  split_ifs with hr
  · exact hr
  · exact ⟨Int64.le_toInt _, Int64.toInt_lt _⟩

/-- The layout of a portable number. -/
theorem layout_number {x : Binary64} (hp : Portable limit h₀ (.number x)) (fuel : Nat) :
    layout env h₀ (fuel + 1) (.number x) =
      if x.isIntegral = true then .integer x.trunc else .double x := by
  rw [layout, Binary64.isIntegral]
  split_ifs with hx
  · rw [castInt64_round hx (hp.integral hx)]
  · rfl

/-- The values that `writeTable` writes of a table. -/
theorem mem_written (hperm : env.sort.Permutes) {t : LuaTable} (lay : LuaValue → Doc)
    {P : LuaValue → Prop} (hnil : P .nil) (hk : ∀ e ∈ t.entries, P e.1)
    (hv : ∀ e ∈ t.entries, P e.2) :
    (layoutTable env lay t = .emptyTable ∧ t.entries.length = 0) ∨
    (layoutTable env lay t =
        .array t.entries.length ((t.elements 1 t.entries.length).map lay) ∧ t.IsArray ∧
      ∀ v ∈ t.elements 1 t.entries.length, P v) ∨
    (layoutTable env lay t = .table t.entries.length [.stop .unsortable] ∧
      t.sortedKeys env = none) ∨
    ∃ ks, ks.Perm t.keys ∧
      layoutTable env lay t = .table t.entries.length ((t.alternate ks).map lay) ∧
      t.entries.length ≠ 0 ∧ ∀ v ∈ t.alternate ks, P v := by
  unfold layoutTable
  split_ifs with hz ha
  · exact Or.inl ⟨rfl, hz⟩
  · refine Or.inr (Or.inl ⟨rfl, ⟨hz, ha⟩, fun v hm => ?_⟩)
    rcases mem_elements hm with rfl | ⟨e, he, rfl⟩
    · exact hnil
    · exact hv e he
  · cases hks : t.sortedKeys env with
    | none => exact Or.inr (Or.inr (Or.inl ⟨rfl, rfl⟩))
    | some ks =>
      have hp := sortedKeys_perm hperm hks
      refine Or.inr (Or.inr (Or.inr ⟨ks, hp, rfl, hz, fun v hm => ?_⟩))
      obtain ⟨e, he, rfl | rfl⟩ := mem_alternate hp hm
      · exact hk e he
      · exact hv e he

@[simp] theorem length_elements (t : LuaTable) (n i : Nat) : (t.elements i n).length = n := by
  induction n generalizing i with
  | zero => rfl
  | succ n ih => rw [LuaTable.elements, List.length_cons, ih]

@[simp] theorem length_alternate (t : LuaTable) (ks : List LuaValue) :
    (t.alternate ks).length = 2 * ks.length := by
  induction ks with
  | nil => rfl
  | cons k ks ih =>
    rw [LuaTable.alternate, List.flatMap_cons, List.length_append, ← LuaTable.alternate, ih]
    simp only [List.length_cons, List.length_nil]
    omega

theorem stopsItems_map_eq_none {lay : LuaValue → Doc} {vs : List LuaValue} :
    Doc.stopsItems (vs.map lay) = none ↔ ∀ v ∈ vs, (lay v).Complete := by
  rw [Doc.stopsItems_eq_none]
  simp

/-- The layouts of some values are encodable items. -/
theorem encodableItems_map {lay : LuaValue → Doc} : ∀ {vs : List LuaValue},
    (∀ v ∈ vs, (lay v).Encodable limit) → Doc.EncodableItems limit (vs.map lay)
  | [], _ => trivial
  | v :: _, h => ⟨h v (List.mem_cons_self ..),
      encodableItems_map fun w hw => h w (List.mem_cons_of_mem _ hw)⟩

/-- The format can hold the complete layout of a storable value. -/
theorem encodable_layout (hperm : env.sort.Permutes) : ∀ {fuel : Nat} {v : LuaValue},
    Storable limit h₀ v → (layout env h₀ fuel v).Complete → (layout env h₀ fuel v).Encodable limit
  | fuel + 1, v, hp, hc => by
    cases v with
    | number x =>
      rw [layout]
      split_ifs with hx
      · exact inInt64_castInt64 _
      · trivial
    | table ref =>
      obtain ⟨t, ht, hsize, hk, hv⟩ := hp.exists_table
      simp only [layout, ht] at hc ⊢
      -- the ways a table is written: empty, as an array, not at all, with sorted keys
      rcases mem_written hperm (layout env h₀ fuel) storable_nil hk hv with
        ⟨hl, _⟩ | ⟨hl, ha, hP⟩ | ⟨hl, _⟩ | ⟨ks, hks, hl, hz, hP⟩
      · rw [hl]
        trivial
      · rw [hl] at hc ⊢
        have hitems := stopsItems_map_eq_none.mp hc
        exact ⟨Nat.pos_of_ne_zero ha.1, hsize, by simp,
          encodableItems_map fun v hm => encodable_layout hperm (hP v hm) (hitems v hm)⟩
      · rw [hl] at hc
        cases hc
      · rw [hl] at hc ⊢
        have hitems := stopsItems_map_eq_none.mp hc
        refine ⟨Nat.pos_of_ne_zero hz, hsize, ?_,
          encodableItems_map fun v hm => encodable_layout hperm (hP v hm) (hitems v hm)⟩
        rw [List.length_map, length_alternate, hks.length_eq, LuaTable.keys, List.length_map]
    | string s => exact hp.short
    | lightuserdata | function | userdata | thread => cases hc
    | nil | boolean => trivial

/-! ### Nothing refused -/

/-- The value of a key that can be written is a key again. -/
theorem isKey_layout {v : LuaValue} (hp : Storable limit h₀ v) (hk : v.isKey = true) {fuel : Nat}
    (hc : (layout env h₀ fuel v).Complete) : (layout env h₀ fuel v).isKey = true := by
  cases fuel with
  | zero => cases hc
  | succ fuel =>
    cases v with
    | number x =>
      rw [layout]
      split_ifs with hx
      · have hr := @inInt64_castInt64 env x.round
        unfold Binary64.InInt64 at hr
        have hnan := Binary64.isNaN_ofInt (z := castInt64 env x.round) (by omega)
        simp [Doc.isKey, integer, isKey, hnan]
      · exact hk
    | table ref =>
      obtain ⟨t, ht, _⟩ := hp.exists_table
      simp only [layout, ht, layoutTable]
      split_ifs <;> rfl
    | nil => cases hk
    | lightuserdata | function | userdata | thread => cases hc
    | boolean | string => rfl

section

variable {sizes : TableSizes}

theorem legalItems_map {lay : LuaValue → Doc} : ∀ {vs : List LuaValue},
    (∀ v ∈ vs, (lay v).Legal sizes) → Doc.LegalItems sizes (vs.map lay)
  | [], _ => trivial
  | v :: _, h => ⟨h v (List.mem_cons_self ..),
      legalItems_map fun w hw => h w (List.mem_cons_of_mem _ hw)⟩

theorem legalEntries_alternate {lay : LuaValue → Doc} {t : LuaTable} : ∀ {ks : List LuaValue},
    (∀ v ∈ t.alternate ks, (lay v).Legal sizes) → (∀ k ∈ ks, (lay k).isKey = true) →
    Doc.LegalEntries sizes ((t.alternate ks).map lay)
  | [], _, _ => trivial
  | k :: ks, h, hk => ⟨h k (by simp [LuaTable.alternate]),
      h (t.get k) (by simp [LuaTable.alternate]), fun _ => hk k (List.mem_cons_self ..),
      legalEntries_alternate (fun v hv => h v (by
        rw [LuaTable.alternate, List.flatMap_cons]
        exact List.mem_append_right _ hv)) fun k' hk' => hk k' (List.mem_cons_of_mem _ hk')⟩

/-- `lua_createtable` accepts the sizes below `limit`. -/
def Accepts (sizes : TableSizes) (limit : Nat) : Prop :=
  ∀ n : Nat, n < limit → sizes n 0 = true ∧ sizes 0 n = true

theorem Accepts.toInt32 (ha : Accepts sizes limit) (hlimit : limit ≤ 2 ^ 31) {n : Nat}
    (hn : n < limit) : sizes (toInt32 n) 0 = true ∧ sizes 0 (toInt32 n) = true := by
  have hi : LuaBinaryTable.toInt32 (n : Int) = n := Int.bmod_eq_of_le (by omega) (by omega)
  rw [hi]
  exact ha n hn

/-- The decoder refuses nothing of the layout of a storable value. -/
theorem legal_layout (hperm : env.sort.Permutes) (hlimit : limit ≤ 2 ^ 31)
    (hsizes : Accepts sizes limit) : ∀ {fuel : Nat} {v : LuaValue}, Storable limit h₀ v →
    (layout env h₀ fuel v).Complete → (layout env h₀ fuel v).Legal sizes
  | fuel + 1, v, hp, hc => by
    cases v with
    | number x =>
      rw [layout]
      split_ifs <;> trivial
    | table ref =>
      obtain ⟨t, ht, hsize, hk, hv⟩ := hp.exists_table
      simp only [layout, ht] at hc ⊢
      rcases mem_written hperm (layout env h₀ fuel) storable_nil hk hv with
        ⟨hl, _⟩ | ⟨hl, ha, hP⟩ | ⟨hl, _⟩ | ⟨ks, hks, hl, hz, hP⟩
      · rw [hl]
        trivial
      · rw [hl] at hc ⊢
        have hitems := stopsItems_map_eq_none.mp hc
        exact ⟨(hsizes.toInt32 hlimit hsize).1,
          legalItems_map fun v hm => legal_layout hperm hlimit hsizes (hP v hm) (hitems v hm)⟩
      · rw [hl] at hc
        cases hc
      · rw [hl] at hc ⊢
        have hitems := stopsItems_map_eq_none.mp hc
        refine ⟨(hsizes.toInt32 hlimit hsize).2, legalEntries_alternate
          (fun v hm => legal_layout hperm hlimit hsizes (hP v hm) (hitems v hm)) fun k hm => ?_⟩
        obtain ⟨e, he, rfl⟩ := List.mem_map.mp (hks.subset hm)
        exact isKey_layout (hk e he) (t.keys_legal e he) (hitems e.1 (by
          rw [LuaTable.alternate, List.mem_flatMap]
          exact ⟨e.1, hm, by simp⟩))
    | lightuserdata | function | userdata | thread => cases hc
    | nil | boolean | string => trivial

end

end LuaBinaryTable
