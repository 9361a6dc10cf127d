import LuaBinaryTable.Document.Equiv.Layout
import LuaBinaryTable.Document.Portable
import LuaBinaryTable.Lua.SameValue
import LuaBinaryTable.Writer.Equiv.SortCmp

/-!
# One layout for one content

The layout of a `Tidy` value depends on its content only (`layout_eq_of_same`): the traversal order
of a table is lost in the sort of its keys, which have one order only, and a contiguous table has
one border only.
-/

namespace LuaBinaryTable

open LuaValue

variable {env : Env} {base : Nat} {h h' : List LuaTable}

/-- An acyclic value all of whose keys are numbers and strings, and all of whose tables are
contiguous. -/
inductive Tidy (h : List LuaTable) : LuaValue → Prop
  | scalar {v : LuaValue} (hv : v.type ≠ .table) : Tidy h v
  | table {ref : Nat} {t : LuaTable} (ht : h[ref]? = some t)
      (kinds : ∀ e ∈ t.entries, e.1.type = .number ∨ e.1.type = .string)
      (contiguous : t.Contiguous) (values : ∀ e ∈ t.entries, Tidy h e.2) : Tidy h (.table ref)

theorem type_ne_table {k : LuaValue} (hk : k.type = .number ∨ k.type = .string) :
    k.type ≠ .table := by
  rcases hk with hk | hk <;> rw [hk] <;> decide

theorem Tidy.acyclic {v : LuaValue} (ht : Tidy h v) : Acyclic h v := by
  induction ht with
  | scalar hv => exact .scalar hv
  | table ht kinds _ _ ih => exact .table ht (fun e he => .scalar (type_ne_table (kinds e he))) ih

theorem Tidy.exists_table {ref : Nat} (ht : Tidy h (.table ref)) :
    ∃ t, h[ref]? = some t ∧ (∀ e ∈ t.entries, e.1.type = .number ∨ e.1.type = .string) ∧
      t.Contiguous ∧ ∀ e ∈ t.entries, Tidy h e.2 := by
  cases ht with
  | scalar hv => exact absurd rfl hv
  | table ht kinds contiguous values => exact ⟨_, ht, kinds, contiguous, values⟩

/-! ### Scalars -/

namespace SameFrom

/-- What has the content of a scalar is the scalar, or an equal number. -/
theorem scalar_cases {v w : LuaValue} (hs : SameFrom base h h' v w) (hv : v.type ≠ .table) :
    w = v ∨ ∃ x y, v = .number x ∧ w = .number y ∧ x.equal y = true := by
  cases hs with
  | scalar => exact Or.inl rfl
  | number hxy => exact Or.inr ⟨_, _, rfl, rfl, hxy⟩
  | table => exact absurd rfl hv

theorem type_eq {v w : LuaValue} (hs : SameFrom base h h' v w) : w.type = v.type := by
  cases hs <;> rfl

/-- Raw equality of scalars depends on the content only. -/
theorem rawEqual_eq {v w u u' : LuaValue} (hs : SameFrom base h h' v w)
    (hs' : SameFrom base h h' u u') (hv : v.type ≠ .table) (hu : u.type ≠ .table) :
    v.rawEqual u = w.rawEqual u' := by
  have hsame : ∀ {a b : LuaValue}, SameFrom base h h' a b → a.type ≠ .table →
      ∀ c, a.rawEqual c = b.rawEqual c := by
    intro a b hab ha c
    rcases hab.scalar_cases ha with rfl | ⟨x, y, rfl, rfl, hxy⟩
    · rfl
    · have hxy : (LuaValue.number x).rawEqual (.number y) = true := rawEqual_number x y ▸ hxy
      rw [Bool.eq_iff_iff]
      exact ⟨rawEqual_trans (rawEqual_symm hxy), rawEqual_trans hxy⟩
  rw [hsame hs hv, rawEqual_comm, hsame hs' hu, rawEqual_comm]

/-- Keys with the same content have the same place. -/
theorem place_eq {v w : LuaValue} (hs : SameFrom base h h' v w) (hv : v.type ≠ .table) :
    place w = place v := by
  rcases hs.scalar_cases hv with rfl | ⟨x, y, rfl, rfl, hxy⟩
  · rfl
  · simp only [Binary64.equal, Bool.and_eq_true, decide_eq_true_eq] at hxy
    rw [place, place, hxy.2]

/-- The tables of a value are nested as deep as those of a value with the same content. -/
theorem nested : ∀ {n : Nat} {v w : LuaValue}, Nested h n v → SameFrom base h h' v w →
    Nested h' n w
  | n + 1, v, w, hn, hs => by
    cases hs with
    | scalar hv =>
      cases v with
      | table ref => exact absurd rfl hv
      | _ => trivial
    | number => trivial
    | table ht ht' _ hperm hlen keys values =>
      obtain ⟨t, ht₀, he⟩ := hn
      cases ht₀.symm.trans ht
      refine ⟨_, ht', fun e' he' => ?_⟩
      obtain ⟨i, hi, rfl⟩ := List.mem_iff_getElem.mp (hperm.mem_iff.mpr he')
      have hi' := hlen ▸ hi
      obtain ⟨hk, hv⟩ := he _ (List.getElem_mem hi')
      exact ⟨nested hk (keys i hi' hi), nested hv (values i hi' hi)⟩

end SameFrom

/-- Both zeros are laid out as 0. -/
theorem layout_zero {x : Binary64} (hnan : x.isNaN = false) (hx : x.magnitude = 0) (fuel : Nat) :
    layout env h (fuel + 1) (.number x) = .integer 0 := by
  have hunits : x.units = 0 := Binary64.units_eq_zero_of_magnitude hx
  have htrunc : x.trunc = 0 := by rw [Binary64.trunc, hunits, Int.zero_tdiv]
  have hint : x.isIntegral = true := by
    apply Binary64.isIntegral_iff.mpr
    rw [hx, Binary64.unitsOf_zero]
    exact ⟨hnan, Nat.dvd_zero _⟩
  have hrange : Binary64.InInt64 x.trunc := by
    rw [htrunc]
    exact ⟨by norm_num, by norm_num⟩
  have hround : x.equal x.round = true := hint
  rw [layout, if_pos hround, castInt64_round hint hrange, htrunc]

/-- Equal numbers are laid out the same. -/
theorem layout_number_congr {x y : Binary64} (hxy : x.equal y = true) (fuel : Nat) :
    layout env h (fuel + 1) (.number x) = layout env h' (fuel + 1) (.number y) := by
  obtain ⟨hnx, hny, rfl | ⟨hx, hy⟩⟩ := Binary64.equal_iff.mp hxy
  · rfl
  · rw [layout_zero hnx hx, layout_zero hny hy]

/-! ### Tables -/

/-- The entries of two tables correspond. -/
structure SameTable (base : Nat) (h h' : List LuaTable) (t t' : LuaTable) : Prop where
  right : ∀ e ∈ t.entries, ∃ e' ∈ t'.entries, SameEntry base h h' e e'
  left : ∀ e' ∈ t'.entries, ∃ e ∈ t.entries, SameEntry base h h' e e'
  length_eq : t.entries.length = t'.entries.length

theorem sameTable_of_same {ref : Nat} {t : LuaTable} {w : LuaValue} (ht : h[ref]? = some t)
    (hs : SameFrom base h h' (.table ref) w) :
    ∃ ref' t', w = .table ref' ∧ h'[ref']? = some t' ∧ SameTable base h h' t t' := by
  obtain ⟨ref', t', es, rfl, ht', _, hperm, hsame⟩ := hs.exists_entries ht
  obtain ⟨hlen, hget⟩ := List.forall₂_iff_get.mp hsame
  refine ⟨ref', t', rfl, ht', fun e he => ?_, fun e' he' => ?_, hlen.trans hperm.length_eq⟩
  · obtain ⟨i, hi, rfl⟩ := List.mem_iff_getElem.mp he
    exact ⟨es[i], hperm.mem_iff.mp (List.getElem_mem (hlen ▸ hi)), hget i hi (hlen ▸ hi)⟩
  · obtain ⟨i, hi, rfl⟩ := List.mem_iff_getElem.mp (hperm.mem_iff.mpr he')
    exact ⟨t.entries[i], List.getElem_mem (hlen ▸ hi), hget i (hlen ▸ hi) hi⟩

namespace SameTable

variable {t t' : LuaTable} (hs : SameTable base h h' t t')
  (kinds : ∀ e ∈ t.entries, e.1.type = .number ∨ e.1.type = .string)

include hs kinds

/-- What the tables hold under keys with the same content has the same content. -/
theorem get {k k' : LuaValue} (hk : SameFrom base h h' k k') (htype : k.type ≠ .table) :
    SameFrom base h h' (t.get k) (t'.get k') := by
  have heq : ∀ e ∈ t.entries, ∀ e', SameEntry base h h' e e' →
      e.1.rawEqual k = e'.1.rawEqual k' := fun e he e' hee =>
    hee.1.rawEqual_eq hk (type_ne_table (kinds e he)) htype
  by_cases hn : ∃ e ∈ t.entries, e.1.rawEqual k = true
  · obtain ⟨e, he, hek⟩ := hn
    obtain ⟨e', he', hee⟩ := hs.right e he
    have hek' : e'.1.rawEqual k' = true := heq e he e' hee ▸ hek
    rw [LuaTable.get, LuaTable.get, Entries.lookup_of_mem t.keys_distinct he hek,
      Entries.lookup_of_mem t'.keys_distinct he' hek']
    exact hee.2
  · have hnone : ∀ e' ∈ t'.entries, e'.1.rawEqual k' = false := by
      intro e' he'
      obtain ⟨e, he, hee⟩ := hs.left e' he'
      rw [← heq e he e' hee, Bool.eq_false_iff]
      exact fun hek => hn ⟨e, he, hek⟩
    have hnone' : ∀ e ∈ t.entries, e.1.rawEqual k = false := fun e he =>
      Bool.eq_false_iff.mpr fun hek => hn ⟨e, he, hek⟩
    rw [LuaTable.get, LuaTable.get, Entries.lookup_eq_nil hnone', Entries.lookup_eq_nil hnone]
    exact .scalar (by simp [type])

theorem get_integer (i : Int) :
    SameFrom base h h' (t.get (integer i)) (t'.get (integer i)) :=
  hs.get kinds (.scalar (by simp [integer, type])) (by simp [integer, type])

theorem kinds_right : ∀ e ∈ t'.entries, e.1.type = .number ∨ e.1.type = .string := by
  intro e' he'
  obtain ⟨e, he, hee⟩ := hs.left e' he'
  rw [hee.1.type_eq]
  exact kinds e he

theorem contiguous (hc : t.Contiguous) : t'.Contiguous := by
  obtain ⟨m, hm⟩ := hc
  refine ⟨m, fun i hi => ?_⟩
  rw [ne_eq, (hs.get_integer kinds _).eq_nil_iff]
  exact hm i hi

theorem border_eq (hc : t.Contiguous) : t.border = t'.border := by
  have hb := hc.border.2
  have hb' := (hs.contiguous kinds hc).border.2
  have hiff : ∀ i, i < 2 ^ 31 → (i < t.border ↔ i < t'.border) := by
    intro i hi
    rw [← hb i hi, ← hb' i hi, ne_eq, ne_eq, (hs.get_integer kinds _).eq_nil_iff]
  have hlt := t.border_legal.1
  have hlt' := t'.border_legal.1
  rcases lt_trichotomy t.border t'.border with hlt | heq | hgt
  · exact absurd ((hiff _ (by omega)).mpr hlt) (lt_irrefl _)
  · exact heq
  · exact absurd ((hiff _ (by omega)).mp hgt) (lt_irrefl _)

end SameTable

/-! ### The order of the keys -/

/-- A key that is a number or a string has a place of its own. -/
theorem orderable_of_kind {k : LuaValue} (hk : k.type = .number ∨ k.type = .string)
    (hlegal : k.isKey = true) : Orderable k ∧ k.type ≠ .boolean := by
  cases k with
  | number x => exact ⟨by simpa [isKey, Orderable] using hlegal, by simp [type]⟩
  | string s => exact ⟨trivial, by simp [type]⟩
  | _ => simp [type] at hk

/-- Keys that are numbers and strings are sorted by their places. -/
theorem exists_sortedKeys (hsorts : env.sort.Sorts) {t : LuaTable}
    (kinds : ∀ e ∈ t.entries, e.1.type = .number ∨ e.1.type = .string) :
    ∃ ks, t.sortedKeys env = some ks ∧ ks.Perm t.keys ∧ ks.Pairwise fun a b => place a < place b := by
  have hks : ∀ k ∈ t.keys, Orderable k ∧ k.type ≠ .boolean := by
    intro k hk
    obtain ⟨e, he, rfl⟩ := List.mem_map.mp hk
    exact orderable_of_kind (kinds e he) (t.keys_legal e he)
  have hd : t.keys.Pairwise fun a b => a.rawEqual b = false :=
    List.pairwise_map.mpr t.keys_distinct
  obtain ⟨ks, hrun, hperm, hsorted⟩ := hsorts _ _ (@strictTotal_of_keys env _ hks hd)
  refine ⟨ks, by rw [LuaTable.sortedKeys, hrun], hperm, ?_⟩
  refine hsorted.imp_of_mem fun {a b} ha hb hab => ?_
  obtain ⟨hoa, hta⟩ := hks a (hperm.mem_iff.mp ha)
  obtain ⟨hob, htb⟩ := hks b (hperm.mem_iff.mp hb)
  exact ((sortComp_iff hoa hob fun hbool => hta hbool.1).2.mp hab).2

/-- Keys with one place have the same content. -/
theorem same_of_place_eq {a b : LuaValue} (ha : a.type = .number ∨ a.type = .string)
    (hb : b.type = .number ∨ b.type = .string) (hka : a.isKey = true) (hkb : b.isKey = true)
    (hplace : place a = place b) : SameFrom base h h' a b := by
  obtain ⟨hoa, hta⟩ := orderable_of_kind ha hka
  obtain ⟨hob, htb⟩ := orderable_of_kind hb hkb
  rcases rawEqual_iff.mp (rawEqual_of_place_eq hoa hob hta htb hplace) with
    ⟨x, y, rfl, rfl, hxy⟩ | ⟨_, rfl⟩
  · exact .number hxy
  · exact .scalar (type_ne_table ha)

/-! ### Layouts -/

section

variable {t t' : LuaTable} (hs : SameTable base h h' t t')
  (kinds : ∀ e ∈ t.entries, e.1.type = .number ∨ e.1.type = .string)

include hs kinds

/-- Sorted by their places, the keys of the tables correspond. -/
theorem forall₂_sorted {ks ks' : List LuaValue} (hks : ks.Perm t.keys) (hks' : ks'.Perm t'.keys)
    (hsorted : ks.Pairwise fun a b => place a < place b)
    (hsorted' : ks'.Pairwise fun a b => place a < place b) :
    List.Forall₂ (SameFrom base h h') ks ks' := by
  have hmem : ∀ p, p ∈ ks.map place ↔ p ∈ ks'.map place := by
    intro p
    simp only [List.mem_map, hks.mem_iff, hks'.mem_iff, LuaTable.keys, exists_exists_and_eq_and]
    constructor
    · rintro ⟨e, he, rfl⟩
      obtain ⟨e', he', hee⟩ := hs.right e he
      exact ⟨e', he', hee.1.place_eq (type_ne_table (kinds e he))⟩
    · rintro ⟨e', he', rfl⟩
      obtain ⟨e, he, hee⟩ := hs.left e' he'
      exact ⟨e, he, (hee.1.place_eq (type_ne_table (kinds e he))).symm⟩
  -- a strictly sorted list is determined by its members
  have hplaces : ks.map place = ks'.map place :=
    List.Pairwise.eq_of_mem_iff (List.pairwise_map.mpr hsorted) (List.pairwise_map.mpr hsorted') hmem
  refine List.forall₂_iff_get.mpr ⟨by simpa using congrArg List.length hplaces, fun i hi hi' => ?_⟩
  obtain ⟨e, he, hk⟩ := List.mem_map.mp (hks.mem_iff.mp (List.getElem_mem hi))
  obtain ⟨e', he', hk'⟩ := List.mem_map.mp (hks'.mem_iff.mp (List.getElem_mem hi'))
  have hplace : place ks[i] = place ks'[i] := by
    have hget := congrArg (fun l => l[i]?) hplaces
    simpa [hi, hi'] using hget
  rw [List.get_eq_getElem, List.get_eq_getElem]
  rw [← hk, ← hk'] at hplace ⊢
  exact same_of_place_eq (kinds e he) (hs.kinds_right kinds e' he') (t.keys_legal e he)
    (t'.keys_legal e' he') hplace

variable (values : ∀ e ∈ t.entries, Tidy h e.2) {lay lay' : LuaValue → Doc}
  (hlay : ∀ v w, Tidy h v → SameFrom base h h' v w → lay v = lay' w)

include values hlay

/-- What the tables hold under a key is laid out the same. -/
theorem lay_get {k k' : LuaValue} (hk : SameFrom base h h' k k') (htype : k.type ≠ .table) :
    lay (t.get k) = lay' (t'.get k') := by
  refine hlay _ _ ?_ (hs.get kinds hk htype)
  rcases get_eq_nil_or t k with hnil | ⟨e, he, hv⟩
  · rw [hnil]
    exact .scalar (by simp [type])
  · rw [hv]
    exact values e he

theorem map_elements : ∀ n i : Nat, (t.elements i n).map lay = (t'.elements i n).map lay'
  | 0, _ => rfl
  | n + 1, i => by
    rw [LuaTable.elements, LuaTable.elements, List.map_cons, List.map_cons,
      map_elements n (i + 1), lay_get hs kinds values hlay (.scalar (by simp [integer, type]))
        (by simp [integer, type])]

theorem map_alternate {ks ks' : List LuaValue} (hks : List.Forall₂ (SameFrom base h h') ks ks')
    (hscalar : ∀ k ∈ ks, k.type ≠ .table) :
    (t.alternate ks).map lay = (t'.alternate ks').map lay' := by
  induction hks with
  | nil => rfl
  | @cons k k' ks ks' hk _ ih =>
    have htype := hscalar k (List.mem_cons_self ..)
    have ih := ih fun k hm => hscalar k (List.mem_cons_of_mem _ hm)
    simp only [LuaTable.alternate, List.flatMap_cons, List.map_append] at ih ⊢
    rw [ih, List.map_cons, List.map_cons, List.map_cons, List.map_cons, hlay k k' (.scalar htype) hk,
      lay_get hs kinds values hlay hk htype]
    rfl

theorem layoutTable_eq_of_same (hsorts : env.sort.Sorts) (hc : t.Contiguous) :
    layoutTable env lay t = layoutTable env lay' t' := by
  obtain ⟨ks, hks, hperm, hsorted⟩ := @exists_sortedKeys env hsorts t kinds
  obtain ⟨ks', hks', hperm', hsorted'⟩ := @exists_sortedKeys env hsorts t' (hs.kinds_right kinds)
  have hforall := forall₂_sorted hs kinds hperm hperm' hsorted hsorted'
  have hscalar : ∀ k ∈ ks, k.type ≠ .table := by
    intro k hk
    obtain ⟨e, he, rfl⟩ := List.mem_map.mp (hperm.mem_iff.mp hk)
    exact type_ne_table (kinds e he)
  rw [layoutTable, layoutTable, ← hs.length_eq, ← hs.border_eq kinds hc, hks, hks',
    map_elements hs kinds values hlay]
  simp only [map_alternate hs kinds values hlay hforall hscalar]

end

/-- Tidy values with the same content have the same layout. -/
theorem layout_eq_of_same (hsorts : env.sort.Sorts) : ∀ (fuel : Nat) (v w : LuaValue), Tidy h v →
    SameFrom base h h' v w → layout env h fuel v = layout env h' fuel w
  | 0, _, _, _, _ => rfl
  | fuel + 1, v, w, ht, hs => by
    cases v with
    | table ref =>
      obtain ⟨t, href, kinds, hc, values⟩ := ht.exists_table
      obtain ⟨ref', t', rfl, href', hst⟩ := sameTable_of_same href hs
      simp only [layout, href, href']
      exact layoutTable_eq_of_same hst kinds values (layout_eq_of_same hsorts fuel) hsorts hc
    | number x =>
      rcases hs.scalar_cases (by simp [type]) with rfl | ⟨_, y, hx, rfl, hxy⟩
      · rfl
      · cases hx
        exact layout_number_congr hxy fuel
    | _ =>
      rcases hs.scalar_cases (by simp [type]) with rfl | ⟨_, _, hx, _⟩
      · rfl
      · cases hx

/-- What has the content of a tidy value is tidy. -/
theorem Tidy.of_same {v w : LuaValue} (ht : Tidy h v) (hs : SameFrom base h h' v w) :
    Tidy h' w := by
  induction ht generalizing w with
  | scalar hv =>
    apply Tidy.scalar
    rwa [hs.type_eq]
  | table href kinds hc values ih =>
    obtain ⟨ref', t', rfl, href', hst⟩ := sameTable_of_same href hs
    refine .table href' (hst.kinds_right kinds) (hst.contiguous kinds hc) fun e' he' => ?_
    obtain ⟨e, he, hee⟩ := hst.left e' he'
    exact ih e he hee.2

end LuaBinaryTable
