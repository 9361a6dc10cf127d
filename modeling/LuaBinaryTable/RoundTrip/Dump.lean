import LuaBinaryTable.Document.Equiv.Canonical
import LuaBinaryTable.Document.Equiv.Copy
import LuaBinaryTable.Source.Parser
import LuaBinaryTable.Writer.Equiv.DumpTable

/-!
# A dump is Lua source of its value

`dump_parses`: the text that `dumpTable` returns for a value of booleans, short integers, plain
strings and tables with such numbers and strings as keys is a chunk `return exp` whose expression
evaluates to a value with the same content.  The tokens of the text do not depend on the
indentation.
-/

namespace LuaBinaryTable

open LuaValue Token

/-- A value that can be printed as Lua source without escapes and without loss. -/
inductive Dumpable (h : List LuaTable) : LuaValue → Prop
  | boolean (b : Bool) : Dumpable h (.boolean b)
  | number {x : Binary64} (hx : x.isIntegral = true) (hlt : x.trunc.natAbs < 10 ^ 14) :
      Dumpable h (.number x)
  | string {s : Bytes} (hs : ∀ c ∈ s, c ≠ 34 ∧ c ≠ 92 ∧ c ≠ 10 ∧ c ≠ 13) : Dumpable h (.string s)
  | table {ref : Nat} {t : LuaTable} (ht : h[ref]? = some t)
      (kinds : ∀ e ∈ t.entries, e.1.type = .number ∨ e.1.type = .string)
      (keys : ∀ e ∈ t.entries, Dumpable h e.1) (values : ∀ e ∈ t.entries, Dumpable h e.2) :
      Dumpable h (.table ref)

variable {env : Env} {h : List LuaTable}

theorem Dumpable.acyclic {v : LuaValue} (hv : Dumpable h v) : Acyclic h v := by
  induction hv with
  | table ht _ _ _ ihk ihv => exact .table ht ihk ihv
  | _ => exact .scalar (by simp [type])

theorem Dumpable.exists_table {ref : Nat} (hv : Dumpable h (.table ref)) :
    ∃ t, h[ref]? = some t ∧ (∀ e ∈ t.entries, e.1.type = .number ∨ e.1.type = .string) ∧
      (∀ e ∈ t.entries, Dumpable h e.1) ∧ ∀ e ∈ t.entries, Dumpable h e.2 := by
  cases hv with
  | table ht kinds keys values => exact ⟨_, ht, kinds, keys, values⟩

/-! ### The sort of the keys -/

theorem sorted_of_kinds (hsorts : env.sort.Sorts) {t : LuaTable}
    (kinds : ∀ e ∈ t.entries, e.1.type = .number ∨ e.1.type = .string) :
    t.sortedKeys env ≠ none := by
  obtain ⟨ks, hks, _⟩ := @exists_sortedKeys env hsorts t kinds
  simp [hks]

theorem Dumpable.sortable (hsorts : env.sort.Sorts) {v : LuaValue} (hv : Dumpable h v) :
    Sortable env h v := by
  induction hv with
  | table ht kinds _ _ ihk ihv =>
    exact (sortable_table_iff ht).mpr ⟨sorted_of_kinds hsorts kinds, fun e he =>
      ⟨ihk e he, ihv e he⟩⟩
  | _ => exact sortable_of_not_table (by simp [type])

/-! ### The expression of a value -/

/-- The fields of a constructor, from the entries of a table. -/
def fieldsOf (f : LuaValue → Exp) : Entries → Fields
  | [] => .nil
  | e :: es => .cons (f e.1) (f e.2) (fieldsOf f es)

/-- The expression that the text of a value spells. -/
def expression (order : Nat → Entries) : Nat → LuaValue → Exp
  | fuel + 1, .table ref => .table (fieldsOf (expression order fuel) (order ref))
  | _, .number x => .number x.trunc
  | _, .string s => .string s
  | _, .boolean b => .boolean b
  | _, _ => .table .nil

/-! ### The tokens of the text -/

theorem lex_lineBreak (indent : Int) (rest : Bytes) :
    lex (lineBreak indent ++ rest) = lex rest := by
  refine lex_spaces (fun c hc => ?_) rest
  rw [lineBreak, List.mem_cons, List.mem_replicate] at hc
  rcases hc with rfl | ⟨_, rfl⟩ <;> decide

theorem lex_bool (b : Bool) {rest : Bytes} (hrest : EndsWord rest) :
    lex (bytesOf (if b then "true" else "false") ++ rest) = (lex rest).map (.boolean b :: ·) := by
  cases b with
  | true =>
    exact lex_word (c := 116) (d := [114, 117, 101]) (Or.inl (by decide)) (by decide)
      (List.all_eq_true.mp (by decide)) (by decide) hrest
  | false =>
    exact lex_word (c := 102) (d := [97, 108, 115, 101]) (Or.inl (by decide)) (by decide)
      (List.all_eq_true.mp (by decide)) (by decide) hrest

/-- The text of a number is the sign and digits of its integer. -/
theorem number_text {x : Binary64} (hx : x.isIntegral = true) (hlt : x.trunc.natAbs < 10 ^ 14) :
    x.formatG14 = (if x.negative then [45] else []) ++ natText x.trunc.natAbs ∧
      (if x.negative then -(x.trunc.natAbs : Int) else x.trunc.natAbs) = x.trunc :=
  ⟨Binary64.formatG14_integral hx hlt, Binary64.sign_natAbs_trunc hx⟩

/-- The text of a key does not turn the bracket before it into a long one. -/
theorem key_text {order : Nat → Entries} {fuel : Nat} (hfuel : 0 < fuel) {k : LuaValue}
    (hk : Dumpable h k) (hkind : k.type = .number ∨ k.type = .string) (indent maxIndent : Int) :
    ∃ c cs, dumpText env order fuel k indent maxIndent = c :: cs ∧ c ≠ 91 ∧ c ≠ 61 := by
  obtain ⟨fuel, rfl⟩ := Nat.exists_eq_succ_of_ne_zero hfuel.ne'
  cases hk with
  | boolean b => simp [type] at hkind
  | table => simp [type] at hkind
  | string hs => exact ⟨34, _, rfl, by decide, by decide⟩
  | @number x hx hlt =>
    rw [dumpText_scalar (by simp [type]), scalarText, (number_text hx hlt).1]
    obtain ⟨c, d, hcd⟩ := List.exists_cons_of_ne_nil (natText_ne_nil x.trunc.natAbs)
    have hdigit := decimalDigits_mem (show c ∈ natText x.trunc.natAbs by rw [hcd]; simp)
    split_ifs
    · exact ⟨45, _, rfl, by decide, by decide⟩
    · refine ⟨c, d, by rw [hcd]; rfl, ?_, ?_⟩
      · rintro rfl
        exact absurd hdigit.2 (by decide)
      · rintro rfl
        exact absurd hdigit.2 (by decide)

/-- A text spells tokens, whatever follows that ends a word. -/
def Spells (text : Bytes) (ts : List Token) : Prop :=
  ∀ rest, EndsWord rest → lex (text ++ rest) = (lex rest).map (ts ++ ·)

/-- The tokens of an entry. -/
theorem lex_itemText {key value : Bytes} {ks vs : List Token} (hkey : Spells key ks)
    (hvalue : Spells value vs) (hfirst : ∃ c cs, key = c :: cs ∧ c ≠ 91 ∧ c ≠ 61)
    (indent maxIndent : Int) (rest : Bytes) :
    lex (itemText indent maxIndent (key, value) ++ rest) =
      (lex rest).map fun ts =>
        .openBracket :: ks ++ .closeBracket :: .assign :: vs ++ .comma :: ts := by
  have hbreak : ∀ cs, lex ((if indent ≤ maxIndent then lineBreak indent else []) ++ cs) = lex cs := by
    intro cs
    split_ifs
    · exact lex_lineBreak indent cs
    · rfl
  have hcomma : start 44 = some ([.comma], .blank) := by decide
  obtain ⟨c, cs, rfl, hc⟩ := hfirst
  have htext : itemText indent maxIndent (c :: cs, value) ++ rest =
      (if indent ≤ maxIndent then lineBreak indent else []) ++
        91 :: c :: (cs ++ (bytesOf "] = " ++ (value ++ 44 :: rest))) := by
    simp [itemText]
  -- the bracket ends whatever word the key is
  have hends : EndsWord (bytesOf "] = " ++ (value ++ 44 :: rest)) :=
    endsWord_cons.mpr (show isWordChar 93 = false by decide)
  rw [htext, hbreak, lex_bracket hc, ← List.cons_append, hkey _ hends, lex_assign,
    hvalue _ (endsWord_cons.mpr (by decide)), lex_punctuation hcomma]
  cases lex rest with
  | none => rfl
  | some ts => simp

/-- The tokens of the text of a value, whatever the indentation. -/
theorem spells_dumpText {order : Nat → Entries}
    (horder : ∀ r t, h[r]? = some t → ∀ e ∈ order r, e ∈ t.entries) :
    ∀ (fuel : Nat) (v : LuaValue) (indent maxIndent : Int), Nested h fuel v → Dumpable h v →
      Spells (dumpText env order fuel v indent maxIndent) (expression order fuel v).tokens
  | 0, _, _, _, hn, _ => hn.elim
  | fuel + 1, v, indent, maxIndent, hn, hv => by
    intro rest hrest
    cases hv with
    | boolean b => exact lex_bool b hrest
    | string hs =>
      rw [dumpText_scalar (by simp [type]), scalarText, List.append_assoc, List.singleton_append]
      exact lex_quoted hs
    | @number x hx hlt =>
      obtain ⟨htext, hvalue⟩ := number_text hx hlt
      rw [dumpText_scalar (by simp [type]), scalarText, htext, lex_integer _ _ hrest, hvalue]
      rfl
    | @table ref t ht kinds keys values =>
      obtain ⟨t', ht', he⟩ := hn
      cases ht.symm.trans ht'
      -- the items, before the text that ends the table
      have hitems : ∀ (es : Entries) (tail : Bytes), (∀ e ∈ es, e ∈ t.entries) →
          lex ((es.map fun e => (dumpText env order fuel e.1 1 0,
              dumpText env order fuel e.2 (indent + 1) maxIndent)).flatMap
                (itemText indent maxIndent) ++ tail) =
            (lex tail).map ((fieldsOf (expression order fuel) es).tokens ++ ·) := by
        intro es tail hes
        induction es with
        | nil => exact Option.map_id'.symm
        | cons e es ih =>
          have hm := hes e (List.mem_cons_self ..)
          obtain ⟨hnk, hnv⟩ := he e hm
          have hkey := spells_dumpText horder fuel e.1 1 0 hnk (keys e hm)
          have hvalue := spells_dumpText horder fuel e.2 (indent + 1) maxIndent hnv (values e hm)
          have hfirst := @key_text env h order fuel hnk.pos e.1 (keys e hm) (kinds e hm) 1 0
          rw [List.map_cons, List.flatMap_cons, List.append_assoc,
            lex_itemText hkey hvalue hfirst, ih fun e' he' => hes e' (List.mem_cons_of_mem _ he')]
          cases lex tail with
          | none => rfl
          | some ts => simp [fieldsOf, Fields.tokens]
      have hopen : start 123 = some ([.openBrace], .blank) := by decide
      have hclose : start 125 = some ([.closeBrace], .blank) := by decide
      rw [dumpText, tableText, List.append_assoc, List.append_assoc, List.cons_append,
        lex_punctuation hopen, hitems (order ref) _ (horder ref t ht)]
      have hend : lex ((if indent ≤ maxIndent ∧ 0 < ((order ref).map fun e =>
            (dumpText env order fuel e.1 1 0,
              dumpText env order fuel e.2 (indent + 1) maxIndent)).length
            then lineBreak (indent - 1) else []) ++ ([125] ++ rest)) =
          (lex rest).map (.closeBrace :: ·) := by
        split_ifs
        · rw [lex_lineBreak]
          exact lex_punctuation hclose rest
        · exact lex_punctuation hclose rest
      rw [hend]
      cases lex rest with
      | none => rfl
      | some ts => simp [expression, Exp.tokens]

/-! ### The value of the expression -/

theorem docs_fieldsOf (f : LuaValue → Exp) (t : LuaTable) (ks : List LuaValue) :
    (fieldsOf f (ks.map fun k => (k, t.get k))).docs = (t.alternate ks).map fun v => (f v).doc := by
  induction ks with
  | nil => rfl
  | cons k ks ih =>
    rw [List.map_cons, fieldsOf, Fields.docs, ih]
    rfl

/-- The expression of a value builds a copy of it. -/
theorem copies_expression (hperm : env.sort.Permutes) (hsorts : env.sort.Sorts) :
    ∀ (fuel : Nat) (v : LuaValue), Nested h fuel v → Dumpable h v →
      Copies h (fun v => (expression (printOrder env h) fuel v).doc) v
  | 0, _, hn, _ => hn.elim
  | fuel + 1, v, hn, hv => by
    intro g
    cases hv with
    | boolean b => exact .scalar (by simp [type])
    | string hs => exact .scalar (by simp [type])
    | @number x hx hlt =>
      exact .number (Binary64.equal_comm _ _ ▸ Binary64.ofInt_trunc_equal hx
        (hlt.trans (by norm_num)))
    | @table ref t ht kinds keys values =>
      obtain ⟨t', ht', he⟩ := hn
      cases ht.symm.trans ht'
      obtain ⟨ks, hks⟩ := Option.ne_none_iff_exists'.mp (@sorted_of_kinds env hsorts t kinds)
      have hp : ks.Perm t.keys := hperm _ _ _ (run_of_sortedKeys hks)
      have horder : printOrder env h ref = ks.map fun k => (k, t.get k) := by
        rw [printOrder, ht, Option.elim_some, LuaTable.sortedEntries, hks, Option.getD_some]
      simp only [expression, Exp.doc, Doc.materialise, horder, docs_fieldsOf]
      -- the constructor stores the fields in the order of the sorted keys
      refine same_fillTable ht hp (fun w hw => ?_) g
      obtain ⟨e, hm, rfl | rfl⟩ := mem_alternate hp hw
      · exact copies_expression hperm hsorts fuel _ (he e hm).1 (keys e hm)
      · exact copies_expression hperm hsorts fuel _ (he e hm).2 (values e hm)

theorem mem_printOrder (hperm : env.sort.Permutes) {r : Nat} {t : LuaTable} (ht : h[r]? = some t) :
    ∀ e ∈ printOrder env h r, e ∈ t.entries := by
  intro e he
  rw [printOrder, ht, Option.elim_some] at he
  cases hks : t.sortedKeys env with
  | none =>
    rw [LuaTable.sortedEntries, hks] at he
    cases he
  | some ks => exact (sortedEntries_perm (hperm _ _ _ (run_of_sortedKeys hks)) hks).subset he

/-- The tokens of a dump. -/
theorem lex_dump (hperm : env.sort.Permutes) {n : Nat} {v : LuaValue} (hn : Nested h n v)
    (hd : Dumpable h v) (maxIndent : Int) :
    lex (bytesOf "return " ++ dumpText env (printOrder env h) n v 1 maxIndent) =
      some (.chunk :: (expression (printOrder env h) n v).tokens) := by
  have hspells := @spells_dumpText env h _ (fun _ _ ht => mem_printOrder hperm ht) n v 1 maxIndent hn
    hd [] endsWord_nil
  have hend : lex [] = some [] := rfl
  rw [List.append_nil, hend, Option.map_some, List.append_nil] at hspells
  -- the first word is followed by a space
  have htext : bytesOf "return " ++ dumpText env (printOrder env h) n v 1 maxIndent =
      114 :: [101, 116, 117, 114, 110] ++ 32 :: dumpText env (printOrder env h) n v 1 maxIndent := rfl
  have hends : EndsWord (32 :: dumpText env (printOrder env h) n v 1 maxIndent) :=
    endsWord_cons.mpr (by decide)
  rw [htext, lex_word (t := .chunk) (Or.inl (by decide)) (by decide)
    (List.all_eq_true.mp (by decide)) (by decide) hends, lex_space (by decide), hspells]
  rfl

/-- `dumpTable` returns the text of the value. -/
theorem dumpTable_text (hperm : env.sort.Permutes) (hsorts : env.sort.Sorts) {S : List LuaValue}
    {idx : Int} (hidx : ValidIndex S idx) (hd : Dumpable h (valueAt S idx)) {n : Nat}
    (hn : Nested h n (valueAt S idx)) (T : Thread) (maxIndent : Int) :
    ∃ L, dumpTable env n (.entry S h T) idx maxIndent =
      .returns (bytesOf "return " ++ dumpText env (printOrder env h) n (valueAt S idx) 1 maxIndent,
        L) := by
  obtain ⟨L, stream, hr, h', T', p, rfl, _, _, hdata⟩ := dumpValue_prints hperm n S h T
    S.length idx 1 maxIndent (BinaryWriter.empty.writeString "return ") (Grows.refl h) hidx
    ⟨hn, hd.sortable hsorts⟩
  rw [BinaryWriter.data_writeString, BinaryWriter.data_empty, List.nil_append] at hdata
  rw [← hdata]
  exact ⟨_, by rw [dumpTable_bind, hr]; rfl⟩

/-- The text of a dump is a chunk of which the expression evaluates to a value with the content of
the value dumped, and its tokens are the same for every indentation. -/
theorem dump_parses (hperm : env.sort.Permutes) (hsorts : env.sort.Sorts) {S : List LuaValue}
    {idx : Int} (hidx : ValidIndex S idx) (hv : Dumpable h (valueAt S idx)) (T : Thread) :
    ∃ n, ∀ fuel, n ≤ fuel → ∃ tokens e, parseChunk tokens = some e ∧
      (∀ g, SameFrom g.length h (e.eval g).2 (valueAt S idx) (e.eval g).1) ∧
        ∀ maxIndent : Int, ∃ text L,
          dumpTable env fuel (.entry S h T) idx maxIndent = .returns (text, L) ∧
            lex text = some tokens := by
  obtain ⟨n, hn⟩ := hv.acyclic.exists_nested
  refine ⟨n, fun fuel hle => ?_⟩
  have hnest := hn.mono hle
  refine ⟨.chunk :: (expression (printOrder env h) fuel (valueAt S idx)).tokens, _,
    parseChunk_tokens _, fun g => ?_, fun maxIndent => ?_⟩
  · rw [Exp.eval_eq]
    exact copies_expression hperm hsorts fuel _ hnest hv g
  · obtain ⟨L, hrun⟩ := dumpTable_text hperm hsorts hidx hv hnest T maxIndent
    exact ⟨_, L, hrun, lex_dump hperm hnest hv maxIndent⟩

/-- A table with a string and a number as keys. -/
def labelTable : LuaTable :=
  (LuaTable.empty.set (.string [97]) (integer (-12))).set (integer 2) (.boolean true)

theorem dumpable_labelTable : Dumpable [labelTable] (.table 0) := by
  have hentries : labelTable.entries =
      [(.string [97], integer (-12)), (integer 2, .boolean true)] := by decide +kernel
  refine .table rfl ?_ ?_ ?_
  · rw [hentries]
    decide
  · intro e he
    rw [hentries] at he
    simp only [List.mem_cons, List.not_mem_nil, or_false] at he
    rcases he with rfl | rfl
    · exact .string (List.forall_mem_singleton.mpr (by decide))
    · exact .number (by decide +kernel) (by decide +kernel)
  · intro e he
    rw [hentries] at he
    simp only [List.mem_cons, List.not_mem_nil, or_false] at he
    rcases he with rfl | rfl
    · exact .number (by decide +kernel) (by decide +kernel)
    · exact .boolean true

theorem dump_parses_labelTable :
    ∃ n, ∀ fuel, n ≤ fuel → ∃ tokens e, parseChunk tokens = some e ∧
      (∀ g, SameFrom g.length [labelTable] (e.eval g).2 (.table 0) (e.eval g).1) ∧
        ∀ maxIndent : Int, ∃ text L,
          dumpTable .plain fuel (.entry [.table 0] [labelTable] (.fresh .nil)) (-1) maxIndent =
            .returns (text, L) ∧ lex text = some tokens :=
  dump_parses insertionSort_permutes insertionSort_sorts (validIndex_top _ []) dumpable_labelTable
    (.fresh .nil)

end LuaBinaryTable
