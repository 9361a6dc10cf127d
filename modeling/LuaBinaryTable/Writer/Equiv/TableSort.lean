import LuaBinaryTable.Writer.Equiv.SortCmp
import LuaBinaryTable.Writer.TableSort

/-!
# The keys sorted by the bundled `table.sort`

The comparator `sortCmp` is asymmetric on all values, as long as the metamethods `__lt` are
(`asymmetric_sortComp`), although it is no strict weak order.  That is what the quicksort of
`ltablib.c` needs to stay inside of its array, so `getSortedTableKeys` leaves the keys of every
table in the array, and fails only where a comparison raises (`getSortedTableKeys_bundled`).
-/

namespace LuaBinaryTable

open LuaValue LuaState

/-- The metamethod `__lt` never puts each of two values before the other. -/
def AsymmetricTM (env : Env) : Prop :=
  ∀ x y, env.orderTM x y = some true → env.orderTM y x ≠ some true

variable {env : Env}

theorem less_asymm {x y : Binary64} (h : x.less y = true) : y.less x = false := by
  simp only [Binary64.less, Bool.and_eq_true, decide_eq_true_eq] at h
  simp only [Binary64.less, Bool.and_eq_false_iff, decide_eq_false_iff_not]
  omega

theorem lStrcmp_asymm {s t : Bytes} (h : lStrcmp s t = .lt) : lStrcmp t s ≠ .lt := by
  rw [lStrcmp_eq_lt_iff] at h
  rw [Ne, lStrcmp_eq_lt_iff]
  exact lt_asymm h

/-- `lessthan` is asymmetric where the metamethods are: numbers and strings are ordered. -/
theorem luaLessThan_asymm (hTM : AsymmetricTM env) {x y : LuaValue}
    (h : luaLessThan env.orderTM x y = some true) : luaLessThan env.orderTM y x ≠ some true := by
  unfold luaLessThan at h ⊢
  split_ifs at h with ht
  rw [if_neg fun h => ht h.symm]
  rw [not_not] at ht
  cases x with
  | number m =>
    cases y with
    | number n =>
      simp only [Option.some.injEq] at h
      simp [less_asymm h]
    | _ => exact absurd ht (by simp [type])
  | string s =>
    cases y with
    | string t =>
      simp only [Option.some.injEq, beq_iff_eq] at h
      simp [lStrcmp_asymm h]
    | _ => exact absurd ht (by simp [type])
  | _ => cases y <;> exact hTM _ _ h

/-- What puts a key before another one of its type. -/
theorem before_of_sortComp {a b : LuaValue} (ht : a.type = b.type)
    (h : sortComp env a b = some true) :
    (a.type = .table ∧ env.topointer a < env.topointer b) ∨
      (a.type ≠ .table ∧ luaLessThan env.orderTM a b = some true) := by
  obtain ⟨n, hn, hb⟩ := Option.map_eq_some_iff.mp h
  have hpos : n ≠ 0 := by
    rintro rfl
    simp at hb
  rw [if_neg hpos] at hb
  have hnil : a.type ≠ .nil := by
    intro hnil
    cases b <;> simp_all [type, truthy]
  simp only [sortCmp, if_neg hnil, if_neg (ht ▸ hnil), if_pos ht] at hn
  split_ifs at hn with htab hlt
  · exact Or.inl ⟨htab, hlt⟩
  · cases hn
    exact absurd rfl hpos
  · obtain ⟨less, hless, rfl⟩ := Option.map_eq_some_iff.mp hn
    cases less with
    | true => exact Or.inr ⟨htab, hless⟩
    | false => exact absurd rfl hpos

/-- A boolean and a number are compared as numbers. -/
theorem less_of_sortComp_boolean {c : Bool} {y : Binary64}
    (h : sortComp env (.boolean c) (.number y) = some true) :
    (Binary64.ofInt (if c then 1 else 0)).less y = true := by
  by_contra hn
  simp [sortComp, sortCmp, type, hn] at h

theorem less_of_sortComp_number {x : Binary64} {c : Bool}
    (h : sortComp env (.number x) (.boolean c) = some true) :
    x.less (Binary64.ofInt (if c then 1 else 0)) = true := by
  by_contra hn
  simp [sortComp, sortCmp, type, hn] at h

/-- The verdict of the comparator is asymmetric. -/
theorem asymmetric_sortComp (hTM : AsymmetricTM env) (E : LuaValue → Prop) :
    Asymmetric (sortComp env) E := by
  intro a b _ _ hab hba
  -- keys of one type are compared by the comparator, those of two by their types or by what lies
  -- on top
  by_cases ht : a.type = b.type
  · rcases before_of_sortComp ht hab with ⟨htab, hlt⟩ | ⟨htab, hlt⟩
    · rcases before_of_sortComp ht.symm hba with ⟨_, hlt'⟩ | ⟨htab', _⟩
      · omega
      · exact htab' (ht ▸ htab)
    · rcases before_of_sortComp ht.symm hba with ⟨htab', _⟩ | ⟨_, hlt'⟩
      · exact htab (ht ▸ htab')
      · exact luaLessThan_asymm hTM hlt hlt'
  · cases a with
    | nil => cases b <;> simp_all [sortComp, sortCmp, type, truthy]
    | boolean c =>
      cases b with
      | number y =>
        have hlt := less_asymm (less_of_sortComp_boolean hab)
        rw [less_of_sortComp_number hba] at hlt
        cases hlt
      | _ => simp_all [sortComp, sortCmp, type, truthy]
    | number x =>
      cases b with
      | boolean c =>
        have hlt := less_asymm (less_of_sortComp_number hab)
        rw [less_of_sortComp_boolean hba] at hlt
        cases hlt
      | _ => simp_all [sortComp, sortCmp, type, truthy]
    | _ => cases b <;> simp_all [sortComp, sortCmp, type, truthy]

theorem isStorable_keys (t : LuaTable) : IsStorable t.keys :=
  ⟨keys_ne_nil t, by simpa [LuaTable.keys] using t.length_lt⟩

variable {S : List LuaValue} {h : List LuaTable} {T : Thread} {i ref : Nat} {t : LuaTable}

/-- With the quicksort of `ltablib.c` as `table.sort`, `getSortedTableKeys` leaves the array that
the quicksort leaves, which has the keys of the table whatever they are.  It fails where, and only
where, a comparison of two keys raises.  At each comparison the array holds the keys and two of
them are compared, so none is read from outside; the quicksort finds no fault with the comparator,
and its calls nest no deeper than 31. -/
theorem getSortedTableKeys_bundled (hsort : env.sort = bundledSort) (hTM : AsymmetricTM env)
    (hi : 0 < i) (hle : i ≤ S.length) (hs : slot S i = .table ref) (ht : h[ref]? = some t) (p : Nat) :
    (sortArray t.keys).Ends (sortComp env) (LuaTable.IsArrayOf t.keys) (· ∈ t.keys)
        (LuaTable.IsArrayOf t.keys) ∧
      ∃ ks, ks.Perm t.keys ∧
      (((sortArray t.keys).run (sortComp env) = .done (setContents (keyArray t.keys) 1 ks) ∧
          getSortedTableKeys env ⟨S, h, T, p⟩ i =
            (1, ⟨.table h.length :: S, h ++ [setContents (keyArray t.keys) 1 ks],
              T.afterSort env (S.length + 5) p, max p (S.length + 5)⟩)) ∨
        ((sortArray t.keys).run (sortComp env) = .raised (setContents (keyArray t.keys) 1 ks) ∧
          getSortedTableKeys env ⟨S, h, T, p⟩ i =
            (0, ⟨T.tableLib :: .table h.length :: S, h ++ [setContents (keyArray t.keys) 1 ks],
              (T.afterSort env (S.length + 5) p).reportUnsorted, max p (S.length + 5)⟩) ∧
          ∃ x y, x ∈ t.keys ∧ y ∈ t.keys ∧ sortComp env x y = none)) := by
  have hx := isStorable_keys t
  have hkeys := getSortedTableKeys_eq env T hi hle hs ht p
  have hasymm := asymmetric_sortComp hTM (· ∈ t.keys)
  refine ⟨(ends_sortArray hx hasymm).imp (fun _ h => h) fun _ h => h.1, ?_⟩
  obtain ⟨a, ha, hrun⟩ := bundledSort_run hx hasymm
  obtain ⟨hperm, heq⟩ := eq_setContents_of_isArrayOf hx ha
  refine ⟨a.elements 1 t.keys.length, hperm, ?_⟩
  rw [← heq]
  -- the sort has answered every question, or the last one has no answer
  rcases hrun with ⟨hr, hp, _⟩ | ⟨hr, hp, x, y, hxm, hym, _, hnone⟩
  · rw [hsort, hp] at hkeys
    simp only [← heq] at hkeys
    exact Or.inl ⟨hr, hkeys⟩
  · rw [hsort, hp] at hkeys
    simp only [← heq] at hkeys
    exact Or.inr ⟨hr, hkeys, x, y, hxm, hym, hnone⟩

/-- Numbers and strings as keys are sorted in place, whatever the environment. -/
theorem sortArray_keys (env : Env) (hkeys : ∀ k ∈ t.keys, Orderable k ∧ k.type ≠ .boolean) :
    ∃ ks, ks.Perm t.keys ∧ ks.Pairwise (fun a b => place a < place b) ∧
      (sortArray t.keys).run (sortComp env) = .done (setContents (keyArray t.keys) 1 ks) := by
  have hx := isStorable_keys t
  have hd : t.keys.Pairwise fun a b => a.rawEqual b = false := List.pairwise_map.mpr t.keys_distinct
  have htotal : Sorter.StrictTotal (sortComp env) t.keys := strictTotal_of_keys hkeys hd
  have hasymm : Asymmetric (sortComp env) (· ∈ t.keys) := fun x y hx hy => htotal.asymm x hx y hy
  obtain ⟨a, ha, ⟨hr, _, hsorted⟩ | ⟨_, _, x, y, hxm, hym, _, hn⟩⟩ := bundledSort_run hx hasymm
  · obtain ⟨hperm, heq⟩ := eq_setContents_of_isArrayOf hx ha
    refine ⟨_, hperm, ?_, heq ▸ hr⟩
    refine (pairwise_of_sortedOn htotal ha
      (hsorted (transitive_of_strictTotal htotal))).imp_of_mem fun {k k'} hk hk' hlt => ?_
    have hk := hkeys k (hperm.subset hk)
    have hk' := hkeys k' (hperm.subset hk')
    exact ((sortComp_iff hk.1 hk'.1 fun h => hk.2 h.1).2.mp hlt).2
  · exact absurd hn (htotal.answers x hxm y hym)

/-- The plain environment with the quicksort. -/
def Env.bundled : Env := { Env.plain with sort := bundledSort }

/-- Two names, the greater one entered first. -/
def namesTable : LuaTable :=
  (LuaTable.empty.set (.string [98]) (.boolean true)).set (.string [97]) (.boolean true)

theorem getSortedTableKeys_bundled_names :
    ∃ ks, ks.Perm namesTable.keys ∧
      getSortedTableKeys .bundled ⟨[.table 0], [namesTable], .fresh .nil, 1⟩ (1 : Nat) =
        (1, ⟨[.table 1, .table 0], [namesTable] ++ [setContents (keyArray namesTable.keys) 1 ks],
          (Thread.fresh .nil).afterSort .bundled 6 1, max 1 6⟩) := by
  obtain ⟨_, ks, hperm, ⟨_, hkeys⟩ | ⟨_, _, x, y, hx, hy, hn⟩⟩ :=
    @getSortedTableKeys_bundled .bundled [.table 0] [namesTable] (.fresh .nil) 1 0 namesTable rfl
      (fun _ _ h => by cases h) (by decide) (by decide) rfl rfl 1
  · exact ⟨ks, hperm, hkeys⟩
  · -- no comparison of two strings raises
    have hstrings : namesTable.keys = [.string [98], .string [97]] := by decide
    rw [hstrings] at hx hy
    simp only [List.mem_cons, List.not_mem_nil, or_false] at hx hy
    rcases hx with rfl | rfl <;> rcases hy with rfl | rfl <;> exact absurd hn (by decide)

theorem sortArray_keys_names :
    ∃ ks, ks.Perm namesTable.keys ∧ ks.Pairwise (fun a b => place a < place b) ∧
      (sortArray namesTable.keys).run (sortComp .bundled) =
        .done (setContents (keyArray namesTable.keys) 1 ks) := by
  refine @sortArray_keys namesTable .bundled fun k hk => ?_
  have hkeys : namesTable.keys = [.string [98], .string [97]] := by decide
  rw [hkeys] at hk
  simp only [List.mem_cons, List.not_mem_nil, or_false] at hk
  rcases hk with rfl | rfl
  · exact ⟨trivial, by decide⟩
  · exact ⟨trivial, by decide⟩

end LuaBinaryTable
