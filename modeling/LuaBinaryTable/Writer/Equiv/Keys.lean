import LuaBinaryTable.Document.Layout
import LuaBinaryTable.Lua.Acyclic
import LuaBinaryTable.Lua.Array
import LuaBinaryTable.Writer.Equiv.Thread

/-!
# Counting and sorting keys, on the state

`countTableLength` returns the number of entries and leaves the stack alone (`countTableLength_eq`).
`getSortedTableKeys` leaves an array with the sorted keys on the stack (`getSortedTableKeys_some`)
or, where the sort raises, the library table and a used array (`getSortedTableKeys_none`).
-/

namespace LuaBinaryTable

namespace LuaTable

/-- The entry after the one of a key in the list of entries. -/
theorem next_of_entries {t : LuaTable} {pre post : Entries} {e : LuaValue × LuaValue}
    (h : t.entries = pre ++ e :: post) : t.next e.1 = post.head? := by
  have hk : e.1.isKey = true := t.keys_legal e (by rw [h]; simp)
  have hd := t.keys_distinct
  rw [h] at hd
  have hnext := Entries.nextAfter_append hd hk
  rw [← h] at hnext
  rw [← hnext]
  cases hv : e.1 with
  | nil => simp [hv] at hk
  | _ => rfl

end LuaTable

namespace LuaState

/-- The key at which a traversal stands after the entries `pre`. -/
def cursor (pre : Entries) : LuaValue := (pre.getLast?).elim .nil Prod.fst

theorem next_cursor {t : LuaTable} {pre post : Entries} (h : t.entries = pre ++ post) :
    t.next (cursor pre) = post.head? := by
  rcases List.eq_nil_or_concat pre with rfl | ⟨pre', e, rfl⟩
  · rw [cursor, List.getLast?_nil, Option.elim_none, LuaTable.next, h, List.nil_append]
  · rw [List.concat_eq_append] at h ⊢
    rw [cursor, List.getLast?_concat, Option.elim_some]
    exact LuaTable.next_of_entries (by rw [h, List.append_assoc, List.singleton_append])

section

variable {S : List LuaValue} {h : List LuaTable} {T : Thread} {i ref : Nat} {t : LuaTable}
  (hi : 0 < i) (hle : i ≤ S.length) (hs : slot S i = .table ref) (ht : h[ref]? = some t)

include hi hs ht

theorem entriesAt_mk (p : Nat) : entriesAt ⟨S, h, T, p⟩ i = t.entries := by
  rw [entriesAt, index2adr_mk _ _ _ _ hi, hs]
  simp only [ht, Option.elim_some]

include hle

/-- One call of `lua_next` in a traversal. -/
theorem next_mk {pre post : Entries} (he : t.entries = pre ++ post) (p : Nat) :
    next i ⟨cursor pre :: S, h, T, p⟩ =
      match post with
      | [] => (false, ⟨S, h, T, p⟩)
      | e :: _ => (true, ⟨e.2 :: e.1 :: S, h, T, max p (S.length + 2)⟩) := by
  have hadr : index2adr ⟨cursor pre :: S, h, T, p⟩ i = .table ref := by
    rw [index2adr_mk _ _ _ _ hi, slot_of_le hle, hs]
  simp only [next, hadr, ht, Option.bind_some, next_cursor he]
  cases post <;> rfl

/-- The loop of `countTableLength` with the entries `pre` behind the cursor. -/
theorem countLoop_eq : ∀ (fuel n : Nat) (pre post : Entries) (p : Nat), t.entries = pre ++ post →
    post.length < fuel → S.length + 1 ≤ p →
    countLoop i fuel n ⟨cursor pre :: S, h, T, p⟩ =
      (n + post.length, ⟨S, h, T, max p (S.length + min 2 (2 * post.length))⟩)
  | fuel + 1, n, pre, post, p, he, hf, hp => by
    rw [countLoop, next_mk hi hle hs ht he]
    cases post with
    | nil =>
      simp only [List.length_nil]
      rw [Nat.max_eq_left (by omega)]
      rfl
    | cons e post =>
      -- `lua_next` pushes the key and the value, and the loop pops the value
      have hrec := countLoop_eq fuel (n + 1) (pre ++ [e]) post (max p (S.length + 2))
        (by rw [he, List.append_assoc, List.singleton_append])
        (by simpa using hf) (by omega)
      have hcur : cursor (pre ++ [e]) = e.1 := by
        rw [cursor, List.getLast?_concat]
        rfl
      rw [hcur] at hrec
      have hpeak : max (max p (S.length + 2)) (S.length + min 2 (2 * post.length)) =
          max p (S.length + min 2 (2 * (post.length + 1))) := by
        omega
      simp only [pop, List.drop_one, List.tail_cons]
      rw [hrec, hpeak, List.length_cons, Nat.add_assoc n, Nat.add_comm 1]

/-- `countTableLength` counts the entries. -/
theorem countTableLength_eq (p : Nat) : countTableLength ⟨S, h, T, p⟩ i =
    (t.entries.length, ⟨S, h, T, max p (S.length + 1 + min 1 t.entries.length)⟩) := by
  have hcount := countLoop_eq (T := T) hi hle hs ht (t.entries.length + 1) 0 [] t.entries
    (max p (S.length + 1)) rfl (Nat.lt_succ_self _) (by omega)
  have hpeak : max (max p (S.length + 1)) (S.length + min 2 (2 * t.entries.length)) =
      max p (S.length + 1 + min 1 t.entries.length) := by
    omega
  rw [hpeak, Nat.zero_add] at hcount
  simp only [countTableLength, if_pos (Int.natCast_pos.mpr hi), entriesAt_mk hi hs ht]
  exact hcount

end

/-! ### Collecting the keys -/

/-- A peak that is exceeded later does not count. -/
theorem max_absorb {p a b : Nat} (h : a ≤ b) : max (max p a) b = max p b := by
  rw [Nat.max_assoc, Nat.max_eq_right h]

/-- The array of keys of the loop of `getSortedTableKeys`. -/
def keyArray (ks : List LuaValue) : LuaTable := setContents LuaTable.empty 1 ks

/-- The loop of `getSortedTableKeys` with the entries `pre` behind the cursor: the keys of the
others come to the end of the array. -/
theorem keysLoop_eq {S : List LuaValue} {T : Thread} {i ref arr : Nat} {t : LuaTable}
    (hi : 0 < i) (hle : i ≤ S.length) (hs : slot S i = .table ref) (hne : ref ≠ arr) :
    ∀ (fuel : Nat) (pre post : Entries) (h : List LuaTable) (p : Nat), h[ref]? = some t →
      t.entries = pre ++ post → post.length < fuel → S.length + 2 ≤ p →
      keysLoop i fuel pre.length ⟨cursor pre :: .table arr :: S, h, T, p⟩ =
        ⟨.table arr :: S, h.modify arr (setContents · (pre.length + 1) (post.map Prod.fst)), T,
          max p (S.length + min 3 (3 * post.length))⟩
  | fuel + 1, pre, post, h, p, ht, he, hf, hp => by
    rw [keysLoop, next_mk (S := .table arr :: S) hi (Nat.le_succ_of_le hle)
      (by rw [slot_of_le hle, hs]) ht he]
    cases post with
    | nil =>
      simp only [List.length_nil, List.map_nil, setContents]
      rw [Nat.max_eq_left (by omega), show h.modify arr (fun x => x) = h from List.modify_id arr h]
    | cons e post =>
      -- the array is a table of its own, so what is stored in it leaves the walk alone
      have hrec := keysLoop_eq (T := T) hi hle hs hne fuel (pre ++ [e]) post
        (h.modify arr (·.set (integer ↑(pre.length + 1)) e.1)) (max p (S.length + 3))
        (by rw [List.getElem?_modify_ne _ _ hne.symm, ht])
        (by rw [he, List.append_assoc, List.singleton_append]) (by simpa using hf) (by omega)
      have hcur : cursor (pre ++ [e]) = e.1 := by
        rw [cursor, List.getLast?_concat]
        rfl
      have hpeak : max (max p (S.length + 3)) (S.length + min 3 (3 * post.length)) =
          max p (S.length + min 3 (3 * (post.length + 1))) := by
        omega
      rw [hcur, List.length_append, List.length_singleton, List.modify_modify_eq, hpeak] at hrec
      simp only [pop, List.drop_one, List.tail_cons, pushvalue, index2adr_top, push_mk,
        List.length_cons]
      have hpeak' : max (max p (S.length + 1 + 2)) (S.length + 1 + 1 + 1) = max p (S.length + 3) := by
        omega
      rw [hpeak', rawseti_third_mk]
      exact hrec

theorem keys_ne_nil (t : LuaTable) : ∀ k ∈ t.keys, k ≠ .nil := by
  intro k hk hn
  obtain ⟨e, he, rfl⟩ := List.mem_map.mp hk
  have := t.keys_legal e he
  rw [hn] at this
  cases this

theorem entries_keyArray (t : LuaTable) : (keyArray t.keys).entries = arrayEntries 1 t.keys := by
  have hlen := t.length_lt
  have h := @LuaTable.entries_setContents_append [] _ LuaTable.empty rfl
    (keys_ne_nil t) (by simpa [LuaTable.keys] using hlen)
  exact h

/-- The elements of an array in the heap. -/
theorem arrayContents_eq {h : List LuaTable} {arr : Nat} {a : LuaTable} {vs : List LuaValue}
    (ha : h[arr]? = some a) (he : a.entries = arrayEntries 1 vs) :
    arrayContents h (.table arr) vs.length = vs := by
  have hlt := LuaTable.length_lt_of_entries he
  apply List.ext_getElem (by simp [arrayContents])
  intro n hn hn'
  simp only [arrayContents, List.getElem_map, List.getElem_range, rawField, ha, Option.elim_some]
  rw [LuaTable.get_integer he (by omega), List.getElem?_eq_getElem hn']
  rfl

/-- The array with its elements replaced by the keys in another order. -/
theorem entries_sorted {t : LuaTable} {ks : List LuaValue} (hks : ks.Perm t.keys) :
    (setContents (keyArray t.keys) 1 ks).entries = arrayEntries 1 ks :=
  @LuaTable.entries_setContents_replace [] _ _ _ (entries_keyArray t) hks.length_eq.symm
    fun k hk => keys_ne_nil t k (hks.subset hk)

/-- The key at which the loop stands. -/
theorem rawField_key {h : List LuaTable} {arr : Nat} {a : LuaTable} {pre ks : List LuaValue}
    {k : LuaValue} (harr : h[arr]? = some a) (ha : a.entries = arrayEntries 1 (pre ++ k :: ks)) :
    rawField h (.table arr) (integer ↑(pre.length + 1)) = k := by
  have hlt := LuaTable.length_lt_of_entries ha
  rw [List.length_append, List.length_cons] at hlt
  rw [rawField, harr, Option.elim_some, LuaTable.get_integer ha (by omega)]
  simp

/-- The protected call of the sort, with the keys on the stack as `getSortedTableKeys` puts them. -/
theorem pcallSort_mk (env : Env) {S : List LuaValue} {h : List LuaTable} {T : Thread}
    {f g : LuaValue} {t : LuaTable} {arr : Nat} (ha : h[arr]? = some (keyArray t.keys)) (p : Nat) :
    pcallSort env ⟨f :: .table arr :: g :: S, h, T, p⟩ =
      match (env.sort t.keys).run (sortComp env) with
      | .ok ks =>
        (0, ⟨S, h.modify arr (setContents · 1 ks), T.afterCall env p (S.length + 3), p⟩)
      | .error ks =>
        (2, ⟨env.sortError :: S, h.modify arr (setContents · 1 ks),
          T.afterCall env p (S.length + 3), p⟩) := by
  have hobj : objlen ⟨f :: .table arr :: g :: S, h, T, p⟩ (-2) = t.keys.length := by
    rw [objlen, index2adr_second]
    simp only [ha, Option.elim_some]
    exact LuaTable.border_eq (entries_keyArray t) (keys_ne_nil t)
  simp only [pcallSort, hobj, arrayContents_eq ha (entries_keyArray t)]
  cases (env.sort t.keys).run (sortComp env) with
  | ok ks => rfl
  | error ks => rfl

section

variable (env : Env) {S : List LuaValue} {h : List LuaTable} (T : Thread) {i ref : Nat}
  {t : LuaTable} (hi : 0 < i) (hle : i ≤ S.length) (hs : slot S i = .table ref)
  (ht : h[ref]? = some t)

include hi hle hs ht

/-- `getSortedTableKeys` up to the call of the sort. -/
theorem getSortedTableKeys_eq (p : Nat) :
    getSortedTableKeys env ⟨S, h, T, p⟩ i =
      match (env.sort t.keys).run (sortComp env) with
      | .ok ks => (1, ⟨.table h.length :: S, h ++ [setContents (keyArray t.keys) 1 ks],
          T.afterSort env (S.length + 5) p, max p (S.length + 5)⟩)
      | .error ks => (0, ⟨T.tableLib :: .table h.length :: S,
          h ++ [setContents (keyArray t.keys) 1 ks],
          (T.afterSort env (S.length + 5) p).reportUnsorted, max p (S.length + 5)⟩) := by
  have href : ref < h.length := (List.getElem?_eq_some_iff.mp ht).1
  have ht' : (h ++ [LuaTable.empty])[ref]? = some t := by
    rw [List.getElem?_append_left href, ht]
  have hs' : slot (.table h.length :: S) i = .table ref := by rw [slot_of_le hle, hs]
  have hloop := keysLoop_eq (T := T) hi hle hs href.ne (t.entries.length + 1) [] t.entries
    (h ++ [LuaTable.empty]) (max (max p (S.length + 1)) (S.length + 2)) ht' rfl
    (Nat.lt_succ_self _) (by omega)
  rw [modify_append_length] at hloop
  have harr : (h ++ [keyArray t.keys])[h.length]? = some (keyArray t.keys) := by simp
  -- the five slots under the call of the sort are the most
  have hpeak : max (max (max (max (max (max (max p (S.length + 1)) (S.length + 1 + 1))
      (S.length + min 3 (3 * t.entries.length))) (S.length + 1 + 1)) (S.length + 1 + 1 + 1))
      (S.length + 1 + 1 + 1 + 1)) (S.length + 1 + 1 + 1 + 1 + 1) = max p (S.length + 5) := by
    rw [max_absorb, max_absorb, max_absorb, max_absorb, max_absorb, max_absorb]
    all_goals omega
  have hcall := pcallSort_mk env (S := T.tableLib :: .table h.length :: S) (T := T)
    (f := .function 0)
    (g := rawField (h ++ [keyArray t.keys]) T.tableLib (.string (bytesOf "sort"))) harr
    (max p (S.length + 5))
  rw [show (T.tableLib :: LuaValue.table h.length :: S).length + 3 = S.length + 5 from rfl] at hcall
  have hcollect : keysLoop i (t.entries.length + 1) 0
      ⟨.nil :: .table h.length :: S, h ++ [LuaTable.empty], T,
        max (max p (S.length + 1)) (S.length + 1 + 1)⟩ =
      ⟨.table h.length :: S, h ++ [keyArray t.keys], T,
        max (max (max p (S.length + 1)) (S.length + 1 + 1))
          (S.length + min 3 (3 * t.entries.length))⟩ := hloop
  simp only [getSortedTableKeys, newtable_mk, entriesAt_mk hi hs' ht', pushnil, push_mk,
    List.length_cons, hcollect, getglobalTable, getfield, pushvalue, index2adr_top,
    index2adr_third, hpeak, hcall]
  cases (env.sort t.keys).run (sortComp env) with
  | ok ks => simp only [modify_append_length, pop, List.drop_one, List.tail_cons, Thread.afterSort]
  | error ks =>
    simp only [modify_append_length, pop, List.drop_one, List.tail_cons, index2adr_top,
      Thread.afterSort, Thread.reportUnsorted, Thread.tableLib_afterCall]

end

end LuaState

end LuaBinaryTable
