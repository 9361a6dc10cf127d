import LuaBinaryTable.Document.Equiv.Encode
import LuaBinaryTable.Document.Portable
import LuaBinaryTable.Lua.SameValue

/-!
# What is built from a layout

`same_materialise`: the value built from the complete layout of a portable value has the content of
that value, in tables of its own.

While a table is filled, the tables of its keys and values lie behind it in the heap, so what is
stored in it later does not matter to them; and a key that is a table is a new one, so it is none of
the keys stored before.
-/

namespace LuaBinaryTable

open LuaValue Doc

variable {env : Env} {h₀ : List LuaTable}

/-- The value built from the document of `v`, in any heap, has the content of `v`. -/
def Copies (h₀ : List LuaTable) (lay : LuaValue → Doc) (v : LuaValue) : Prop :=
  ∀ h, SameFrom h.length h₀ ((lay v).materialise h).2 v ((lay v).materialise h).1

/-- The heap after a value has been built and stored in the table at `ref`. -/
theorem old_of_store (ref : Nat) {h h' : List LuaTable} (hg : Grows h h')
    (f : LuaTable → LuaTable) : ∀ i, ref + 1 ≤ i → i < h.length → (h'.modify ref f)[i]? = h[i]? := by
  intro i hi hlt
  rw [List.getElem?_modify_ne _ _ (by omega), hg.old i hlt]

theorem getElem?_store {ref : Nat} {h h' : List LuaTable} {t : LuaTable} (hg : Grows h h')
    (ht : h[ref]? = some t) (f : LuaTable → LuaTable) : (h'.modify ref f)[ref]? = some (f t) := by
  have hlt := (List.getElem?_eq_some_iff.mp ht).1
  rw [List.getElem?_modify_eq, hg.old ref hlt, ht]
  rfl

/-! ### Arrays -/

/-- The loop over an array with the elements `done` behind it: each further one is copied to the
next index. -/
theorem fillArray_copies {lay : LuaValue → Doc} {ref : Nat} :
    ∀ (vs done ws : List LuaValue) (h : List LuaTable) (t : LuaTable),
      (∀ v ∈ vs, Copies h₀ lay v ∧ v ≠ .nil) → h[ref]? = some t → t.entries = arrayEntries 1 ws →
      List.Forall₂ (SameFrom (ref + 1) h₀ h) done ws → done.length + vs.length < 2 ^ 31 →
      ∃ t' ws', (fillArray ref (vs.map lay) done.length h)[ref]? = some t' ∧
        t'.entries = arrayEntries 1 ws' ∧
        List.Forall₂ (SameFrom (ref + 1) h₀ (fillArray ref (vs.map lay) done.length h))
          (done ++ vs) ws'
  | [], done, ws, h, t, _, ht, he, hs, _ => ⟨t, ws, ht, he, by rwa [List.append_nil]⟩
  | v :: vs, done, ws, h, t, hv, ht, he, hs, hlen => by
    rw [List.length_cons] at hlen
    obtain ⟨hcopy, hne⟩ := hv v (List.mem_cons_self ..)
    have hlt := (List.getElem?_eq_some_iff.mp ht).1
    have hg := grows_materialise (lay v) h
    have hsame := hcopy h
    simp only [List.map_cons, fillArray]
    generalize (lay v).materialise h = x at hg hsame ⊢
    obtain ⟨w, h'⟩ := x
    have hwne : w ≠ .nil := fun h => hne (hsame.eq_nil_iff.mp h)
    have hws : ws.length = done.length := hs.length_eq.symm
    -- the element is stored behind the others
    have hset : (t.set (LuaBinaryTable.integer ↑(done.length + 1)) w).entries =
        arrayEntries 1 (ws ++ [w]) := by
      have := @LuaTable.entries_setContents_append _ [w] _ he (by simpa) (by simp; omega)
      rwa [hws] at this
    rw [toInt32_succ (by omega)]
    -- the elements stored before lie between the table and the new one, and stay as they are
    have hold := old_of_store ref hg
      (·.set (LuaBinaryTable.integer ↑(done.length + 1)) w)
    have hnew : SameFrom (ref + 1) h₀ (h'.modify ref
        (·.set (LuaBinaryTable.integer ↑(done.length + 1)) w)) v w :=
      (hsame.mono (show ref + 1 ≤ h.length by omega)).heap fun i hi _ => by
        rw [List.getElem?_modify_ne _ _ (by omega)]
    have hrec := fillArray_copies vs (done ++ [v]) (ws ++ [w]) _ _
      (fun u hu => hv u (List.mem_cons_of_mem _ hu)) (getElem?_store hg ht _) hset
      (List.rel_append (hs.imp fun _ _ h => h.heap hold) (.cons hnew .nil)) (by simp; omega)
    rwa [List.length_append, List.length_singleton, List.append_assoc, List.singleton_append]
      at hrec

/-! ### Tables -/

/-- A new key is none of the keys stored before. -/
theorem lookup_copy_eq_nil {base : Nat} {h h' : List LuaTable} {k kv : LuaValue} {done es : Entries}
    (hs : List.Forall₂ (SameEntry base h₀ h) done es) (hk : SameFrom h.length h₀ h' k kv)
    (hne : ∀ e ∈ done, e.1.rawEqual k = false) : es.lookup kv = .nil := by
  induction hs with
  | nil => rfl
  | cons hse _ ih =>
    rw [Entries.lookup, hse.1.rawEqual_eq_false hk (hne _ (List.mem_cons_self ..))]
    exact ih fun e he => hne e (List.mem_cons_of_mem _ he)

/-- The loop over the entries with those in `done` behind it.  The keys are different, so each
entry comes to the end of the new table. -/
theorem fillTable_copies {lay : LuaValue → Doc} {ref : Nat} {t : LuaTable} :
    ∀ (ks : List LuaValue) (done : Entries) (h : List LuaTable) (t' : LuaTable),
      (∀ k ∈ ks, Copies h₀ lay k ∧ Copies h₀ lay (t.get k) ∧ k.isKey = true ∧ t.get k ≠ .nil) →
      (done ++ ks.map fun k => (k, t.get k)).Pairwise (fun e e' => e.1.rawEqual e'.1 = false) →
      h[ref]? = some t' → List.Forall₂ (SameEntry (ref + 1) h₀ h) done t'.entries →
      done.length + ks.length < 2 ^ 31 →
      ∃ t'', (fillTable ref ((t.alternate ks).map lay) h)[ref]? = some t'' ∧
        List.Forall₂ (SameEntry (ref + 1) h₀ (fillTable ref ((t.alternate ks).map lay) h))
          (done ++ ks.map fun k => (k, t.get k)) t''.entries
  | [], done, h, t', _, _, ht, hs, _ => ⟨t', ht, by rwa [List.map_nil, List.append_nil]⟩
  | k :: ks, done, h, t', hk, hd, ht, hs, hlen => by
    rw [List.length_cons] at hlen
    obtain ⟨hck, hcv, hkey, hne⟩ := hk k (List.mem_cons_self ..)
    have hlt := (List.getElem?_eq_some_iff.mp ht).1
    have hg := grows_materialise (lay k) h
    have hsk := hck h
    have halt : (t.alternate (k :: ks)).map lay =
        lay k :: lay (t.get k) :: (t.alternate ks).map lay := rfl
    simp only [halt, fillTable]
    generalize (lay k).materialise h = x at hg hsk ⊢
    obtain ⟨kv, h'⟩ := x
    have hg' := grows_materialise (lay (t.get k)) h'
    have hsv := hcv h'
    simp only
    generalize (lay (t.get k)).materialise h' = x at hg' hsv ⊢
    obtain ⟨vv, h''⟩ := x
    have hgrow := hg.trans hg'
    -- the entry is stored behind the others
    rw [List.map_cons, List.pairwise_append] at hd
    -- a nil here makes `set` append: the copies keep the keys apart
    have hnil : t'.get kv = .nil :=
      lookup_copy_eq_nil hs hsk fun e he => hd.2.2 e he _ (List.mem_cons_self ..)
    have hset : (t'.set kv vv).entries = t'.entries ++ [(kv, vv)] :=
      LuaTable.entries_set_of_get_eq_nil t' (hsk.isKey_eq.trans hkey) hnil
        (fun h => hne (hsv.eq_nil_iff.mp h)) (by rw [← hs.length_eq]; omega)
    -- the store changes the table at `ref` only, and all copies lie behind it
    have hstore : ∀ i, ref + 1 ≤ i → (h''.modify ref (·.set kv vv))[i]? = h''[i]? := fun i hi =>
      List.getElem?_modify_ne _ _ (by omega)
    have hkv : SameFrom (ref + 1) h₀ (h''.modify ref (·.set kv vv)) k kv :=
      ((hsk.grows hg').mono (show ref + 1 ≤ h.length by omega)).heap fun i hi _ => hstore i hi
    have hvv : SameFrom (ref + 1) h₀ (h''.modify ref (·.set kv vv)) (t.get k) vv :=
      (hsv.mono (show ref + 1 ≤ h'.length from hlt.trans_le hg.length_le)).heap
        fun i hi _ => hstore i hi
    have hold := old_of_store ref hgrow (·.set kv vv)
    have hsame : List.Forall₂ (SameEntry (ref + 1) h₀ (h''.modify ref (·.set kv vv)))
        (done ++ [(k, t.get k)]) (t'.set kv vv).entries := by
      rw [hset]
      exact List.rel_append (hs.imp fun _ _ h => ⟨h.1.heap hold, h.2.heap hold⟩)
        (.cons ⟨hkv, hvv⟩ .nil)
    have hrec := fillTable_copies ks (done ++ [(k, t.get k)]) _ _
      (fun k' hk' => hk k' (List.mem_cons_of_mem _ hk'))
      (by rw [List.append_assoc, List.singleton_append]; exact List.pairwise_append.mpr hd)
      (getElem?_store hgrow ht _) hsame (by simp; omega)
    rwa [List.append_assoc, List.singleton_append] at hrec

/-- A new table filled with copies of the keys of a table and their values. -/
theorem same_fillTable {lay : LuaValue → Doc} {ref : Nat} {t : LuaTable} {ks : List LuaValue}
    (ht : h₀[ref]? = some t) (hks : ks.Perm t.keys)
    (hcopy : ∀ v ∈ t.alternate ks, Copies h₀ lay v) (h : List LuaTable) :
    SameFrom h.length h₀ (fillTable h.length ((t.alternate ks).map lay) (h ++ [LuaTable.empty]))
      (.table ref) (.table h.length) := by
  have hnew : (h ++ [LuaTable.empty])[h.length]? = some LuaTable.empty := by simp
  have hes : t.entries.Perm (ks.map fun k => (k, t.get k)) := by
    have := (hks.map fun k => (k, t.get k)).symm
    rwa [t.map_keys_get] at this
  have hmem : ∀ k ∈ ks, k ∈ t.alternate ks ∧ t.get k ∈ t.alternate ks := fun k hk =>
    ⟨List.mem_flatMap.mpr ⟨k, hk, by simp⟩, List.mem_flatMap.mpr ⟨k, hk, by simp⟩⟩
  have hpair : (ks.map fun k => (k, t.get k)).Pairwise fun e e' => e.1.rawEqual e'.1 = false :=
    (hes.pairwise_iff fun h => rawEqual_comm _ _ ▸ h).mp t.keys_distinct
  have hkey : ∀ k ∈ ks, Copies h₀ lay k ∧ Copies h₀ lay (t.get k) ∧ k.isKey = true ∧
      t.get k ≠ .nil := by
    intro k hm
    obtain ⟨e, he, rfl⟩ := List.mem_map.mp (hks.subset hm)
    refine ⟨hcopy _ (hmem _ hm).1, hcopy _ (hmem _ hm).2, t.keys_legal e he, ?_⟩
    rw [t.get_of_mem he]
    exact t.values_present e he
  have hlen : ([] : Entries).length + ks.length < 2 ^ 31 := by
    rw [List.length_nil, Nat.zero_add, hks.length_eq, LuaTable.keys, List.length_map]
    exact t.length_lt
  -- the loop starts from an empty table with no key done
  obtain ⟨t', ht', hsame⟩ := fillTable_copies ks [] _ _ hkey hpair hnew .nil hlen
  exact .of_entries ht ht' le_rfl hes (List.Perm.refl _)
    (hsame.imp fun _ _ h => h.mono (Nat.le_succ _))

/-! ### Values -/

variable {limit : Nat}

theorem forall₂_arrayEntries {base : Nat} {h : List LuaTable} {vs ws : List LuaValue}
    (hs : List.Forall₂ (SameFrom base h₀ h) vs ws) (i : Nat) :
    List.Forall₂ (SameEntry base h₀ h) (arrayEntries i vs) (arrayEntries i ws) := by
  induction hs generalizing i with
  | nil => exact .nil
  | cons hvw _ ih => exact .cons ⟨.scalar (by simp [LuaBinaryTable.integer, type]), hvw⟩ (ih (i + 1))

/-- The value built from the layout of a portable value has its content. -/
theorem same_materialise (hperm : env.sort.Permutes) : ∀ {fuel : Nat} {v : LuaValue},
    Portable limit h₀ v → (layout env h₀ fuel v).Complete → Copies h₀ (layout env h₀ fuel) v
  | fuel + 1, v, hp, hc, h => by
    cases v with
    | number x =>
      rw [layout_number hp]
      split_ifs with hx
      · -- an integral number is stored as an int64 and comes back equal, -0 as 0
        have hr := hp.integral hx
        unfold Binary64.InInt64 at hr
        exact .number (Binary64.equal_comm _ _ ▸ Binary64.ofInt_trunc_equal hx (by omega))
      · exact .scalar (by simp [type])
    | table ref =>
      obtain ⟨t, ht, _, hcont, hk, hv⟩ := hp.exists_table
      have hlt := t.length_lt
      simp only [layout, ht] at hc ⊢
      have hnew : (h ++ [LuaTable.empty])[h.length]? = some LuaTable.empty := by simp
      rcases mem_written hperm (layout env h₀ fuel) portable_nil hk hv with
        ⟨hl, hz⟩ | ⟨hl, ha, hP⟩ | ⟨hl, _⟩ | ⟨ks, hks, hl, hz, hP⟩
      · rw [hl]
        refine .of_entries ht hnew le_rfl (List.Perm.refl _) (List.Perm.refl _) ?_
        rw [List.length_eq_zero_iff.mp hz]
        exact .nil
      · rw [hl] at hc ⊢
        have hitems := stopsItems_map_eq_none.mp hc
        have hperm' := hcont.perm ha.2
        rw [← ha.2, LuaTable.indexEntries_eq] at hperm'
        have hne : ∀ v ∈ t.elements 1 t.entries.length, v ≠ .nil :=
          LuaTable.elements_ne_nil (ha.2 ▸ hcont.border.1)
        obtain ⟨t', ws, ht', he, hsame⟩ := fillArray_copies
          (t.elements 1 t.entries.length) [] [] _ _
          (fun v hm => ⟨same_materialise hperm (hP v hm) (hitems v hm), hne v hm⟩) hnew rfl .nil
          (by simpa using hlt)
        refine .of_entries ht ht' le_rfl hperm' (by rw [he]) ?_
        exact (forall₂_arrayEntries hsame 1).imp fun _ _ h => h.mono (Nat.le_succ _)
      · -- the sort raised: the layout is not complete
        rw [hl] at hc
        cases hc
      · rw [hl] at hc ⊢
        have hitems := stopsItems_map_eq_none.mp hc
        exact same_fillTable ht hks (fun v hm => same_materialise hperm (hP v hm) (hitems v hm)) h
    | lightuserdata | function | userdata | thread => cases hc
    | nil | boolean | string => exact .scalar (by simp [type])

end LuaBinaryTable
