import LuaBinaryTable.RoundTrip.Dump
import LuaBinaryTable.Writer.Equiv.Fuel

/-!
# Dumps of the same content

The expression of a dump is a normal form of the content of the value: two values that can be
printed have the same content exactly where their dumps are read as the same expression, whatever
the indentation of either (`dump_parse_iff`).
-/

namespace LuaBinaryTable

open LuaValue

variable {env : Env} {base : Nat} {h h' : List LuaTable}

theorem Binary64.trunc_eq_of_equal {x y : Binary64} (hxy : x.equal y = true) :
    x.trunc = y.trunc := by
  have hunits := units_eq_iff.mpr (equal_iff.mp hxy).2.2
  rw [trunc, trunc, hunits]

/-- Keys with the same content give the same fields. -/
theorem fieldsOf_congr {t t' : LuaTable} {f f' : LuaValue → Exp} {ks ks' : List LuaValue}
    (hks : List.Forall₂ (SameFrom base h h') ks ks')
    (hf : ∀ k ∈ ks, ∀ k' ∈ ks', SameFrom base h h' k k' →
      f k = f' k' ∧ f (t.get k) = f' (t'.get k')) :
    fieldsOf f (ks.map fun k => (k, t.get k)) = fieldsOf f' (ks'.map fun k => (k, t'.get k)) := by
  induction hks with
  | nil => rfl
  | @cons k k' ks ks' hk _ ih =>
    obtain ⟨hkey, hvalue⟩ := hf k (List.mem_cons_self ..) k' (List.mem_cons_self ..) hk
    rw [List.map_cons, List.map_cons, fieldsOf, fieldsOf, hkey, hvalue,
      ih fun k hm k' hm' => hf k (List.mem_cons_of_mem _ hm) k' (List.mem_cons_of_mem _ hm')]

theorem mem_alternate_of_mem {t : LuaTable} {ks : List LuaValue} {k : LuaValue} (hk : k ∈ ks) :
    k ∈ t.alternate ks ∧ t.get k ∈ t.alternate ks :=
  ⟨List.mem_flatMap.mpr ⟨k, hk, by simp⟩, List.mem_flatMap.mpr ⟨k, hk, by simp⟩⟩

/-- Values with the same content are printed as the same expression. -/
theorem expression_eq_of_same (hsorts : env.sort.Sorts) :
    ∀ (n n' : Nat) (v w : LuaValue), Nested h n v → Nested h' n' w → Dumpable h v →
      SameFrom base h h' v w →
        expression (printOrder env h) n v = expression (printOrder env h') n' w
  | 0, _, _, _, hn, _, _, _ => hn.elim
  | _ + 1, 0, _, _, _, hn', _, _ => hn'.elim
  | n + 1, n' + 1, v, w, hn, hn', hd, hs => by
    cases hd with
    | boolean b =>
      rcases hs.scalar_cases (by simp [type]) with rfl | ⟨_, _, hx, _⟩
      · rfl
      · cases hx
    | string =>
      rcases hs.scalar_cases (by simp [type]) with rfl | ⟨_, _, hx, _⟩
      · rfl
      · cases hx
    | number =>
      rcases hs.scalar_cases (by simp [type]) with rfl | ⟨_, y, hx, rfl, hxy⟩
      · rfl
      · cases hx
        rw [expression, expression, Binary64.trunc_eq_of_equal hxy]
    -- the two tables may sit at different places of their heaps and list their entries apart
    | @table ref t ht kinds keys values =>
      obtain ⟨ref', t', rfl, ht', hst⟩ := sameTable_of_same ht hs
      obtain ⟨t₁, ht₁, he⟩ := hn
      obtain ⟨t₂, ht₂, he'⟩ := hn'
      cases ht.symm.trans ht₁
      cases ht'.symm.trans ht₂
      obtain ⟨ks, hks, hp, hsorted⟩ := @exists_sortedKeys env hsorts t kinds
      obtain ⟨ks', hks', hp', hsorted'⟩ := @exists_sortedKeys env hsorts t' (hst.kinds_right kinds)
      -- both are printed in the order their keys are sorted in, and that order is one
      have horder : printOrder env h ref = ks.map fun k => (k, t.get k) := by
        rw [printOrder, ht, Option.elim_some, LuaTable.sortedEntries, hks, Option.getD_some]
      have horder' : printOrder env h' ref' = ks'.map fun k => (k, t'.get k) := by
        rw [printOrder, ht', Option.elim_some, LuaTable.sortedEntries, hks', Option.getD_some]
      -- what the recursion needs of every key and value that is printed
      have hleft : ∀ u ∈ t.alternate ks, Nested h n u ∧ Dumpable h u := by
        intro u hu
        obtain ⟨e, hm, rfl | rfl⟩ := mem_alternate hp hu
        · exact ⟨(he e hm).1, keys e hm⟩
        · exact ⟨(he e hm).2, values e hm⟩
      have hright : ∀ u ∈ t'.alternate ks', Nested h' n' u := by
        intro u hu
        obtain ⟨e, hm, rfl | rfl⟩ := mem_alternate hp' hu
        · exact (he' e hm).1
        · exact (he' e hm).2
      have hscalar : ∀ k ∈ ks, k.type ≠ .table := by
        intro k hk
        obtain ⟨e, hm, rfl⟩ := List.mem_map.mp (hp.mem_iff.mp hk)
        exact type_ne_table (kinds e hm)
      rw [expression, expression, horder, horder']
      refine congrArg Exp.table (fieldsOf_congr
        (forall₂_sorted hst kinds hp hp' hsorted hsorted') fun k hk k' hk' hkk => ?_)
      obtain ⟨hkey, hvalue⟩ := @mem_alternate_of_mem t ks k hk
      obtain ⟨hkey', hvalue'⟩ := @mem_alternate_of_mem t' ks' k' hk'
      exact ⟨expression_eq_of_same hsorts n n' _ _ (hleft k hkey).1 (hright k' hkey')
          (hleft k hkey).2 hkk,
        expression_eq_of_same hsorts n n' _ _ (hleft _ hvalue).1 (hright _ hvalue')
          (hleft _ hvalue).2 (hst.get kinds hkk (hscalar k hk))⟩

/-- The tokens of whatever `dumpTable` returns. -/
theorem lex_dumpTable (hperm : env.sort.Permutes) (hsorts : env.sort.Sorts) {S : List LuaValue}
    {idx : Int} (hidx : ValidIndex S idx) (hd : Dumpable h (valueAt S idx)) {T : Thread}
    {fuel : Nat} {maxIndent : Int} {text : Bytes} {L : LuaState}
    (hw : dumpTable env fuel (.entry S h T) idx maxIndent = .returns (text, L)) :
    ∃ n, Nested h n (valueAt S idx) ∧ Token.lex text =
      some (.chunk :: (expression (printOrder env h) n (valueAt S idx)).tokens) := by
  obtain ⟨m, hm⟩ := hd.acyclic.exists_nested
  have hn := hm.mono (le_max_left m fuel)
  obtain ⟨L', hrun⟩ := dumpTable_text hperm hsorts hidx hd hn T maxIndent
  have hmore := (dumpTable_below (le_max_right m fuel) _ idx maxIndent).eq_of_returns hw
  rw [hrun] at hmore
  cases hmore
  exact ⟨_, hn, lex_dump hperm hn hd maxIndent⟩

/-- Dumps are read as the same expression exactly where they are dumps of the same content, however
they are indented. -/
theorem dump_parse_iff (hperm : env.sort.Permutes) (hsorts : env.sort.Sorts) {S S' : List LuaValue}
    {idx idx' : Int} (hidx : ValidIndex S idx) (hidx' : ValidIndex S' idx')
    (hd : Dumpable h (valueAt S idx)) (hd' : Dumpable h' (valueAt S' idx')) {T T' : Thread}
    {fuel fuel' : Nat} {maxIndent maxIndent' : Int} {text text' : Bytes} {L L' : LuaState}
    (hw : dumpTable env fuel (.entry S h T) idx maxIndent = .returns (text, L))
    (hw' : dumpTable env fuel' (.entry S' h' T') idx' maxIndent' = .returns (text', L')) :
    (Token.lex text).bind parseChunk = (Token.lex text').bind parseChunk ↔
      SameValue h h' (valueAt S idx) (valueAt S' idx') := by
  obtain ⟨n, hn, hlex⟩ := lex_dumpTable hperm hsorts hidx hd hw
  obtain ⟨n', hn', hlex'⟩ := lex_dumpTable hperm hsorts hidx' hd' hw'
  rw [hlex, hlex', Option.bind_some, Option.bind_some, parseChunk_tokens, parseChunk_tokens]
  constructor
  · intro hparse
    -- both values are copied by one expression
    have hcopy := copies_expression hperm hsorts n _ hn hd []
    have hcopy' := copies_expression hperm hsorts n' _ hn' hd' []
    dsimp only at hcopy
    rw [Option.some.inj hparse] at hcopy
    exact hcopy.of_common hcopy'
  · intro hs
    rw [expression_eq_of_same hsorts n n' _ _ hn hn' hd hs]

/-- The dumps of `labelTable` in one line and in several. -/
theorem dump_parse_iff_labelTable : ∃ fuel text text' L L',
    dumpTable .plain fuel (.entry [.table 0] [labelTable] (.fresh .nil)) (-1) 0 =
        .returns (text, L) ∧
      dumpTable .plain fuel (.entry [.table 0] [labelTable] (.fresh .nil)) (-1) 99 =
        .returns (text', L') ∧
        (Token.lex text).bind parseChunk = (Token.lex text').bind parseChunk := by
  have hidx : ValidIndex [.table 0] (-1) := validIndex_top _ []
  obtain ⟨n, hn⟩ := dumpable_labelTable.acyclic.exists_nested
  obtain ⟨L, hw⟩ := @dumpTable_text .plain [labelTable] insertionSort_permutes insertionSort_sorts
    [.table 0] (-1) hidx dumpable_labelTable n hn (.fresh .nil) 0
  obtain ⟨L', hw'⟩ := @dumpTable_text .plain [labelTable] insertionSort_permutes insertionSort_sorts
    [.table 0] (-1) hidx dumpable_labelTable n hn (.fresh .nil) 99
  exact ⟨n, _, _, L, L', hw, hw', (dump_parse_iff insertionSort_permutes insertionSort_sorts hidx hidx
    dumpable_labelTable dumpable_labelTable hw hw').mpr dumpable_labelTable.acyclic.sameValue⟩

end LuaBinaryTable
