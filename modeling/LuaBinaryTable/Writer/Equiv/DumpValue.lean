import LuaBinaryTable.Writer.DumpText
import LuaBinaryTable.Writer.Equiv.WriteValue

/-!
# How `dumpValue` ends

`dumpValue` addresses its array of keys relative to the top of the stack.  On an acyclic value it
always returns, with slots left above the stack at most (`dumpValue_leaves`).  It leaves none and
prints the `dumpText` of the value where the keys of all tables can be sorted (`dumpValue_prints`),
and leaves some where they cannot (`dumpValue_leaves_some`).
-/

namespace LuaBinaryTable

open LuaState

variable {env : Env} {h : List LuaTable}

/-- The standard library table: all its fields have names. -/
def LibraryTable (h : List LuaTable) (lib : LuaValue) : Prop :=
  ∃ ref t, lib = .table ref ∧ h[ref]? = some t ∧ t.border = 0

/-! ### Nested values in a growing heap -/

theorem Grows.table {h' : List LuaTable} (hg : Grows h h') {ref : Nat} {t : LuaTable}
    (ht : h[ref]? = some t) : h'[ref]? = some t := by
  rw [hg.old ref (List.getElem?_eq_some_iff.mp ht).1, ht]

theorem LibraryTable.grows {lib : LuaValue} {h' : List LuaTable} (hT : LibraryTable h lib)
    (hg : Grows h h') : LibraryTable h' lib := by
  obtain ⟨ref, t, hv, ht, hb⟩ := hT
  exact ⟨ref, t, hv, hg.table ht, hb⟩

theorem Nested.grows {h' : List LuaTable} (hg : Grows h h') :
    ∀ {n : Nat} {v : LuaValue}, Nested h n v → Nested h' n v
  | n + 1, v, hn => by
    cases v with
    | table ref =>
      obtain ⟨t, ht, he⟩ := hn
      exact ⟨t, hg.table ht, fun e hm => ⟨(he e hm).1.grows hg, (he e hm).2.grows hg⟩⟩
    | _ => trivial

theorem Nested.pos {n : Nat} {v : LuaValue} (hn : Nested h n v) : 0 < n := by
  cases n with
  | zero => exact hn.elim
  | succ n => exact Nat.succ_pos n

/-- What a nested value holds under any key is nested less deep. -/
theorem nested_rawField {n : Nat} (hn : 0 < n) {v : LuaValue} (hv : Nested h (n + 1) v)
    (k : LuaValue) : Nested h n (rawField h v k) := by
  have hnil : Nested h n .nil := nested_of_scalar hn (by simp [LuaValue.type])
  cases v with
  | table ref =>
    obtain ⟨t, ht, he⟩ := hv
    rw [rawField, ht, Option.elim_some]
    by_cases hg : t.get k = .nil
    · rwa [hg]
    · obtain ⟨e, hm, _, hk⟩ := Entries.exists_of_lookup_ne_nil hg
      rw [LuaTable.get, hk]
      exact (he e hm).2
  | _ => exact hnil

/-- An array of nested values. -/
theorem nested_array {n arr : Nat} {a : LuaTable} {vs : List LuaValue} (ha : h[arr]? = some a)
    (he : a.entries = arrayEntries 1 vs) (hv : ∀ v ∈ vs, Nested h n v) :
    Nested h (n + 1) (.table arr) := by
  have hvalues : ∀ e ∈ arrayEntries 1 vs, e.2 ∈ vs := by
    intro e hm
    have := a.get_of_mem (he ▸ hm)
    obtain ⟨j, h1, h2, hk⟩ := mem_arrayEntries hm
    have hlt := LuaTable.length_lt_of_entries he
    have hget := LuaTable.get_integer he (m := j - 1) (by omega)
    rw [Nat.sub_add_cancel h1, List.getElem?_eq_getElem (show j - 1 < vs.length by omega)] at hget
    rw [← this, hk, hget]
    exact List.getElem_mem _
  refine ⟨a, ha, fun e hm => ?_⟩
  rw [he] at hm
  have hval := hv e.2 (hvalues e hm)
  obtain ⟨j, _, _, hk⟩ := mem_arrayEntries hm
  exact ⟨nested_of_scalar hval.pos (by rw [hk]; simp [integer, LuaValue.type]), hval⟩

/-! ### The array of keys -/

theorem nested_sorted {n : Nat} {t : LuaTable} {ks : List LuaValue} (hks : ks.Perm t.keys)
    (hn : ∀ e ∈ t.entries, Nested h n e.1) :
    Nested (h ++ [setContents (keyArray t.keys) 1 ks]) (n + 1) (.table h.length) := by
  refine nested_array (by simp) (entries_sorted hks) fun k hk => ?_
  obtain ⟨e, he, rfl⟩ := List.mem_map.mp (hks.subset hk)
  exact (hn e he).grows (Grows.append h _)

/-! ### Runs of the printer -/

/-- The run returns, with a state and an output of which `P` holds. -/
def Ends (P : LuaState → BinaryWriter → Prop) (x : Run LuaState (LuaState × BinaryWriter)) : Prop :=
  ∃ L stream, x = .returns (L, stream) ∧ P L stream

theorem Ends.bind {P P' : LuaState → BinaryWriter → Prop}
    {x : Run LuaState (LuaState × BinaryWriter)}
    {f : LuaState × BinaryWriter → Run LuaState (LuaState × BinaryWriter)} (hx : Ends P x)
    (hf : ∀ L stream, P L stream → Ends P' (f (L, stream))) : Ends P' (x >>= f) := by
  obtain ⟨L, stream, rfl, hp⟩ := hx
  exact hf L stream hp

theorem Ends.imp {P P' : LuaState → BinaryWriter → Prop}
    {x : Run LuaState (LuaState × BinaryWriter)} (hx : Ends P x)
    (hp : ∀ L stream, P L stream → P' L stream) : Ends P' x := by
  obtain ⟨L, stream, rfl, h⟩ := hx
  exact ⟨L, stream, rfl, hp L stream h⟩

/-- At least `m` slots are left above `S`, with values nested less than `n` deep. -/
def Leaves (lib : LuaValue) (S : List LuaValue) (h : List LuaTable) (n m : Nat) (L : LuaState)
    (_ : BinaryWriter) : Prop :=
  ∃ extra h' T p, L = ⟨extra ++ S, h', T, p⟩ ∧ T.tableLib = lib ∧ Grows h h' ∧ m ≤ extra.length ∧
    ∀ v ∈ extra, Nested h' n v

/-- The stack is `S`, and the output has grown from `out` by the text. -/
def Prints (room : Nat) (T : Thread) (p : Nat) (S : List LuaValue) (h : List LuaTable)
    (out text : Bytes) (L : LuaState) (stream : BinaryWriter) : Prop :=
  ∃ h' T' p', L = ⟨S, h', T', p'⟩ ∧ Thread.Quiet room T p T' p' ∧ Grows h h' ∧
    stream.data = out ++ text

variable {lib : LuaValue}

theorem Leaves.of_later {S : List LuaValue} {h' : List LuaTable} {n m m' : Nat} {L : LuaState}
    {stream : BinaryWriter} (hg : Grows h h') (hle : m' ≤ m) (hL : Leaves lib S h' n m L stream) :
    Leaves lib S h n m' L stream := by
  obtain ⟨extra, h'', T, p, hL, hl, hg', hm, hextra⟩ := hL
  exact ⟨extra, h'', T, p, hL, hl, hg.trans hg', hle.trans hm, hextra⟩

theorem Prints.leaves {room p : Nat} {T : Thread} {S : List LuaValue} {out text : Bytes}
    {L : LuaState} {stream : BinaryWriter} (hp : Prints room T p S h out text L stream) (n : Nat) :
    Leaves T.tableLib S h n 0 L stream := by
  obtain ⟨h', T', p', hL, hq, hg, _⟩ := hp
  exact ⟨[], h', T', p', hL, hq.tableLib, hg, Nat.zero_le _, by simp⟩

/-- One entry of the loop: the key, its value, and on. -/
theorem dumpLoop_succ (vd : ValueDumper) (i : Nat) (indent maxIndent : Int) (n j : Nat)
    (u : LuaValue) (S : List LuaValue) (h : List LuaTable) (T : Thread) (p : Nat)
    (stream : BinaryWriter) :
    dumpLoop vd i indent maxIndent (n + 1) j ⟨u :: S, h, T, p⟩ stream =
      (vd (-1) 1 0 ⟨rawField h u (integer j) :: u :: S, h, T, max p (S.length + 1 + 1)⟩
        ((if indent ≤ maxIndent then (stream.writeChar 10).writeIndent indent
          else stream).writeChar 91) >>= fun a =>
        vd (-1) (indent + 1) maxIndent (a.1.rawget i) (a.2.writeString "] = ") >>= fun b =>
          dumpLoop vd i indent maxIndent n (j + 1) (b.1.pop 1) (b.2.writeChar 44)) := by
  rw [dumpLoop, rawgeti, index2adr_top, push_mk, List.length_cons]

/-- The slot on the top and those below it, above `S`. -/
theorem exists_top (X Q S : List LuaValue) (v : LuaValue) :
    ∃ w R, X ++ v :: (Q ++ S) = w :: (R ++ S) ∧ R.length = X.length + Q.length ∧
      ∀ x ∈ R, x ∈ X ∨ x = v ∨ x ∈ Q := by
  cases X with
  | nil => exact ⟨v, Q, rfl, by simp, fun x hx => Or.inr (Or.inr hx)⟩
  | cons w X =>
    refine ⟨w, X ++ v :: Q, by simp, by simp; omega, ?_⟩
    intro x hx
    rcases List.mem_append.mp hx with hx | hx
    · exact Or.inl (List.mem_cons_of_mem _ hx)
    · exact Or.inr (List.mem_cons.mp hx)

/-- What the loop does from any slots above the stack. -/
def LoopLeaves (vd : ValueDumper) (lib : LuaValue) (S : List LuaValue) (i ref n : Nat)
    (indent maxIndent : Int) (k j : Nat) : Prop :=
  ∀ (u : LuaValue) (Q : List LuaValue) (h : List LuaTable) (T : Thread) (p : Nat)
    (stream : BinaryWriter), T.tableLib = lib → LibraryTable h lib → Nested h (n + 1) (.table ref) →
      (∀ v ∈ u :: Q, Nested h (n + 1) v) → Ends (Leaves lib S h (n + 1) (Q.length + 1))
        (dumpLoop vd i indent maxIndent k j ⟨u :: (Q ++ S), h, T, p⟩ stream)

/-- The loop goes on from the slots that the value of an entry has left. -/
theorem leaves_after_value {vd : ValueDumper} {S : List LuaValue} {i ref n k j : Nat}
    {indent maxIndent : Int} (hloop : LoopLeaves vd lib S i ref n indent maxIndent k j)
    {Y R : List LuaValue} {w : LuaValue} {h : List LuaTable} {T : Thread} (p : Nat)
    (stream : BinaryWriter) (hl : T.tableLib = lib) (hT : LibraryTable h lib)
    (ht : Nested h (n + 1) (.table ref)) (hY : ∀ v ∈ Y, Nested h n v)
    (hw : Nested h n w) (hR : ∀ v ∈ R, Nested h (n + 1) v) (hlen : 0 < R.length) :
    Ends (Leaves lib S h (n + 1) (Y.length + R.length))
      (dumpLoop vd i indent maxIndent k j (pop 1 ⟨Y ++ w :: (R ++ S), h, T, p⟩) stream) := by
  obtain ⟨w', R', hR', hlen', hmem⟩ := exists_top Y R S w
  obtain ⟨u, Q, rfl⟩ := List.exists_cons_of_length_pos (show 0 < R'.length by omega)
  have hQ : ∀ v ∈ u :: Q, Nested h (n + 1) v := by
    intro v hv
    rcases hmem v hv with hv | rfl | hv
    · exact (hY v hv).mono (Nat.le_succ n)
    · exact hw.mono (Nat.le_succ n)
    · exact hR v hv
  rw [← hlen']
  simp only [pop, hR', List.drop_one, List.tail_cons]
  exact hloop u Q h T p stream hl hT ht hQ

section Loop

variable {vd : ValueDumper} {n : Nat}
  (hvd : ∀ S h T p idx indent maxIndent stream, T.tableLib = lib → LibraryTable h lib →
    ValidIndex S idx → Nested h n (valueAt S idx) →
      Ends (Leaves lib S h n 0) (vd idx indent maxIndent ⟨S, h, T, p⟩ stream))
  {i ref : Nat} {S : List LuaValue} (hi : 0 < i) (hle : i ≤ S.length) (hs : slot S i = .table ref)
  (indent maxIndent : Int)

include hvd hi hle hs

/-- The loop goes on from the slots that the key of an entry has left. -/
theorem leaves_after_key {k j : Nat} (hloop : LoopLeaves vd lib S i ref n indent maxIndent k j)
    {X Q : List LuaValue} {v : LuaValue} {h : List LuaTable} {T : Thread} (p : Nat)
    (stream : BinaryWriter) (hl : T.tableLib = lib) (hT : LibraryTable h lib)
    (ht : Nested h (n + 1) (.table ref)) (hX : ∀ x ∈ X, Nested h n x)
    (hv : Nested h n v) (hQ : ∀ x ∈ Q, Nested h (n + 1) x) (hlen : 0 < Q.length) :
    Ends (Leaves lib S h (n + 1) (X.length + Q.length))
      (vd (-1) (indent + 1) maxIndent (rawget i ⟨X ++ v :: (Q ++ S), h, T, p⟩)
        (stream.writeString "] = ") >>= fun b =>
          dumpLoop vd i indent maxIndent k j (b.1.pop 1) (b.2.writeChar 44)) := by
  -- `lua_rawget` takes the slot on the top for the key, whatever it holds
  obtain ⟨w, R, hR, hlen', hmem⟩ := exists_top X Q S v
  have hleR : i ≤ (R ++ S).length := by rw [List.length_append]; omega
  have hval : Nested h n (rawField h (.table ref) w) := nested_rawField hv.pos ht w
  have hRn : ∀ x ∈ R, Nested h (n + 1) x := by
    intro x hx
    rcases hmem x hx with hx | rfl | hx
    · exact (hX x hx).mono (Nat.le_succ n)
    · exact hv.mono (Nat.le_succ n)
    · exact hQ x hx
  rw [hR, rawget_mk _ _ _ _ hi hleR, slot_append hle, hs]
  refine Ends.bind (hvd _ h T _ (-1) _ _ _ hl hT (validIndex_top _ _) (by rwa [valueAt_top])) ?_
  rintro L stream' ⟨Y, h', T', p', rfl, hl', hg, _, hY⟩
  refine (leaves_after_value hloop p' _ hl' (hT.grows hg) (ht.grows hg) hY
    (hval.grows hg) (fun x hx => (hRn x hx).grows hg) (by omega)).imp ?_
  exact fun L stream'' => Leaves.of_later hg (by omega)

/-- From any slots above the stack, the loop goes on and leaves at least as many. -/
theorem dumpLoop_leaves : ∀ (k j : Nat), (k ≠ 0 → 0 < n) →
    LoopLeaves vd lib S i ref n indent maxIndent k j
  | 0, j, _, u, Q, h, T, p, stream, hl, _, _, hQ =>
    ⟨_, stream, rfl, u :: Q, h, T, p, rfl, hl, Grows.refl h, le_rfl, hQ⟩
  | k + 1, j, hn, u, Q, h, T, p, stream, hl, hT, ht, hQ => by
    have hpos : 0 < n := hn (Nat.succ_ne_zero k)
    have hkey : Nested h n (rawField h u (integer j)) :=
      nested_rawField hpos (hQ u (List.mem_cons_self ..)) _
    rw [dumpLoop_succ]
    refine Ends.bind (hvd _ h T _ (-1) 1 0 _ hl hT (validIndex_top _ _) (by rwa [valueAt_top])) ?_
    rintro L stream' ⟨X, h', T', p', rfl, hl', hg, _, hX⟩
    refine (leaves_after_key hvd hi hle hs indent maxIndent
      (dumpLoop_leaves k (j + 1) fun _ => hpos) (Q := u :: Q) p' _ hl' (hT.grows hg) (ht.grows hg) hX
      (hkey.grows hg) (fun x hx => (hQ x hx).grows hg) (Nat.succ_pos _)).imp ?_
    exact fun L stream'' => Leaves.of_later hg (Nat.le_add_left _ _)

end Loop

/-! ### Tables -/

/-- The end of a table: the array of keys is popped and the bracket closed. -/
def closeTable (indent maxIndent : Int) (length : Nat) (b : LuaState × BinaryWriter) :
    Run LuaState (LuaState × BinaryWriter) :=
  .returns (b.1.pop 1, (if indent ≤ maxIndent ∧ 0 < length then
    (b.2.writeChar 10).writeIndent (indent - 1) else b.2).writeChar 125)

section Table

variable {fuel : Nat} {S : List LuaValue} {idx : Int} (hidx : ValidIndex S idx) {ref : Nat}
  (hv : valueAt S idx = .table ref) {t : LuaTable} (ht : h[ref]? = some t) {ks : List LuaValue}
  (indent maxIndent : Int) (T : Thread) (p : Nat) (stream : BinaryWriter)

include hidx hv

theorem dumpValue_table :
    dumpValue env (fuel + 1) idx indent maxIndent ⟨S, h, T, p⟩ stream =
      (let L := (getSortedTableKeys env ⟨S, h, T, p⟩ (absIndex S.length idx)).2
      dumpLoop (dumpValue env fuel) (absIndex S.length idx) indent maxIndent (L.objlen (-1)) 1 L
        (stream.writeChar 123) >>= closeTable indent maxIndent (L.objlen (-1))) := by
  have hadr : index2adr ⟨S, h, T, p⟩ idx = .table ref := hv
  have habs : (if 0 < idx then idx else ((LuaState.mk S h T p).gettop : Int) + idx + 1) =
      absIndex S.length idx := by
    have h0 := hidx.ne_zero
    rw [← hidx.absolute, show (LuaState.mk S h T p).gettop = S.length from rfl]
    split_ifs <;> omega
  rw [dumpValue, hadr]
  simp only [habs]
  rfl

include ht

/-- Where the sort succeeds, the loop runs over the sorted keys. -/
theorem dumpValue_sorted (hks : ks.Perm t.keys)
    (hrun : (env.sort t.keys).run (sortComp env) = .ok ks) :
    dumpValue env (fuel + 1) idx indent maxIndent ⟨S, h, T, p⟩ stream =
      (dumpLoop (dumpValue env fuel) (absIndex S.length idx) indent maxIndent ks.length 1
        ⟨.table h.length :: S, h ++ [setContents (keyArray t.keys) 1 ks],
          T.afterSort env (S.length + 5) p, max p (S.length + 5)⟩
        (stream.writeChar 123) >>= closeTable indent maxIndent ks.length) := by
  have hlen : objlen ⟨.table h.length :: S, h ++ [setContents (keyArray t.keys) 1 ks],
      T.afterSort env (S.length + 5) p, max p (S.length + 5)⟩ (-1) = ks.length := by
    rw [objlen, index2adr_top]
    simp only [List.getElem?_concat_length, Option.elim_some]
    exact LuaTable.border_eq (entries_sorted hks) fun k hk => keys_ne_nil t k (hks.subset hk)
  rw [dumpValue_table hidx hv, getSortedTableKeys_eq env T hidx.pos hidx.le hv ht, hrun]
  simp only [hlen]

/-- Where it raises, nothing is printed between the brackets, and the array stays on the stack. -/
theorem dumpValue_unsorted (hT : LibraryTable h T.tableLib)
    (hrun : (env.sort t.keys).run (sortComp env) = .error ks) :
    dumpValue env (fuel + 1) idx indent maxIndent ⟨S, h, T, p⟩ stream =
      .returns (⟨.table h.length :: S, h ++ [setContents (keyArray t.keys) 1 ks],
          (T.afterSort env (S.length + 5) p).reportUnsorted, max p (S.length + 5)⟩,
        (stream.writeChar 123).writeChar 125) := by
  obtain ⟨r, lib, htable, hlib, hborder⟩ := hT
  have hlen : objlen ⟨T.tableLib :: .table h.length :: S,
      h ++ [setContents (keyArray t.keys) 1 ks],
      (T.afterSort env (S.length + 5) p).reportUnsorted, max p (S.length + 5)⟩ (-1) = 0 := by
    have := (Grows.append h [setContents (keyArray t.keys) 1 ks]).table hlib
    rw [objlen, index2adr_top, htable]
    simp only [this, Option.elim_some, hborder]
  rw [dumpValue_table hidx hv, getSortedTableKeys_eq env _ hidx.pos hidx.le hv ht, hrun]
  simp only [hlen, dumpLoop, Run.pure_eq, Run.returns_bind, closeTable, pop, List.drop_one,
    List.tail_cons, lt_self_iff_false, and_false, if_false]

end Table

/-! ### Acyclic values -/

theorem exists_ref {v : LuaValue} (hv : v.type = .table) : ∃ ref, v = .table ref := by
  cases v with
  | table ref => exact ⟨ref, rfl⟩
  | _ => cases hv

theorem run_of_sortedKeys {t : LuaTable} {ks : List LuaValue} (h : t.sortedKeys env = some ks) :
    (env.sort t.keys).run (sortComp env) = .ok ks := by
  unfold LuaTable.sortedKeys at h
  split at h
  · cases h
    assumption
  · cases h

theorem dumpText_scalar {order : Nat → Entries} {fuel : Nat} {v : LuaValue}
    (hv : v.type ≠ .table) (indent maxIndent : Int) :
    dumpText env order (fuel + 1) v indent maxIndent = scalarText env v := by
  cases v with
  | table ref => exact absurd rfl hv
  | _ => rfl

/-- A value other than a table is printed as its text. -/
theorem dumpValue_scalar {fuel : Nat} {S : List LuaValue} {idx : Int}
    (hv : (valueAt S idx).type ≠ .table) (indent maxIndent : Int) (room : Nat) (T : Thread)
    (p : Nat) (stream : BinaryWriter) :
    Ends (Prints room T p S h stream.data (scalarText env (valueAt S idx)))
      (dumpValue env (fuel + 1) idx indent maxIndent ⟨S, h, T, p⟩ stream) := by
  have hadr : index2adr ⟨S, h, T, p⟩ idx = valueAt S idx := rfl
  rw [dumpValue, hadr]
  cases hval : valueAt S idx with
  | table ref => exact absurd (by rw [hval]; rfl) hv
  | _ => exact ⟨_, _, rfl, h, T, p, rfl, .refl room T p, Grows.refl h, by simp [scalarText]⟩

/-- On an acyclic value the printer returns, whatever it leaves on the stack. -/
theorem dumpValue_leaves (hsort : env.sort.Rearranges) :
    ∀ fuel S h T p idx indent maxIndent stream, T.tableLib = lib → LibraryTable h lib →
      ValidIndex S idx → Nested h fuel (valueAt S idx) →
        Ends (Leaves lib S h fuel 0) (dumpValue env fuel idx indent maxIndent ⟨S, h, T, p⟩ stream)
  | 0, _, _, _, _, _, _, _, _, _, _, _, hn => hn.elim
  | fuel + 1, S, h, T, p, idx, indent, maxIndent, stream, hl, hT, hidx, hn => by
    by_cases hv : (valueAt S idx).type = .table
    · obtain ⟨ref, hv⟩ := exists_ref hv
      rw [hv] at hn
      obtain ⟨t, ht, he⟩ := hn
      -- a failed sort leaves the array of keys on the stack, which is what the values after it
      -- lie on
      cases hrun : (env.sort t.keys).run (sortComp env) with
      | error ks =>
        have hks := hsort _ _ _ (Or.inr hrun)
        rw [dumpValue_unsorted hidx hv ht indent maxIndent T p stream (hl ▸ hT) hrun]
        refine ⟨_, _, rfl, [.table h.length], _, _, _, rfl, by simpa using hl, Grows.append h _,
          Nat.zero_le _, ?_⟩
        intro v hv
        rw [List.mem_singleton.mp hv]
        exact nested_sorted hks fun e hm => (he e hm).1
      | ok ks =>
        have hks := hsort _ _ _ (Or.inl hrun)
        rw [dumpValue_sorted hidx hv ht indent maxIndent T p stream hks hrun]
        have hpos : ks.length ≠ 0 → 0 < fuel := by
          intro hne
          obtain ⟨k, hk⟩ := List.exists_mem_of_length_pos (Nat.pos_of_ne_zero hne)
          obtain ⟨e, hm, _⟩ := List.mem_map.mp (hks.subset hk)
          exact (he e hm).1.pos
        have hg := Grows.append h [setContents (keyArray t.keys) 1 ks]
        refine Ends.bind (dumpLoop_leaves (dumpValue_leaves hsort fuel) hidx.pos hidx.le hv indent
          maxIndent ks.length 1 hpos (.table h.length) [] _ _ _ _ (by simpa using hl) (hT.grows hg)
          (Nested.grows hg ⟨t, ht, he⟩) ?_) ?_
        · intro v hv
          rw [List.mem_singleton.mp hv]
          exact nested_sorted hks fun e hm => (he e hm).1
        -- the one value that is popped is the array, or what an unsorted table above it has left
        · rintro L stream' ⟨extra, h', T', p', rfl, hl', hg', hm, hextra⟩
          obtain ⟨w, extra, rfl⟩ := List.exists_cons_of_length_pos (Nat.lt_of_succ_le hm)
          exact ⟨_, _, rfl, extra, h', T', p', rfl, hl', hg.trans hg', Nat.zero_le _,
            fun v hv => hextra v (List.mem_cons_of_mem _ hv)⟩
    · subst hl
      exact (dumpValue_scalar hv indent maxIndent 0 T p stream).imp fun L stream' hp => hp.leaves _

/-! ### Sorted tables -/

section Sorted

variable {h₀ : List LuaTable} {vd : ValueDumper} {text : LuaValue → Int → Int → Bytes}
  {Good : LuaValue → Prop}
  (hvd : ∀ S h T p idx indent maxIndent stream, Grows h₀ h → ValidIndex S idx →
    Good (valueAt S idx) →
      Ends (Prints (S.length + 5) T p S h stream.data (text (valueAt S idx) indent maxIndent))
        (vd idx indent maxIndent ⟨S, h, T, p⟩ stream))
  {i ref arr : Nat} {S : List LuaValue} (hi : 0 < i) (hle : i ≤ S.length)
  (hs : slot S i = .table ref) {t : LuaTable} (ht : h₀[ref]? = some t) (indent maxIndent : Int)

include hvd hi hle hs ht

/-- An entry whose key and value are printed: the loop goes on above the same array of keys. -/
theorem dumpLoop_item {k : LuaValue} (hk : Good k) (hval : Good (t.get k)) {n j : Nat}
    {h : List LuaTable} (hg : Grows h₀ h) (T : Thread) (p : Nat) (stream : BinaryWriter)
    (hkey : rawField h (.table arr) (integer j) = k) {P : LuaState → BinaryWriter → Prop}
    (hrest : ∀ h' T' p' (stream' : BinaryWriter), Grows h h' →
      Thread.Quiet (S.length + 7) T p T' p' → stream'.data = stream.data ++
        itemText indent maxIndent (text k 1 0, text (t.get k) (indent + 1) maxIndent) →
      Ends P (dumpLoop vd i indent maxIndent n (j + 1) ⟨.table arr :: S, h', T', p'⟩ stream')) :
    Ends P (dumpLoop vd i indent maxIndent (n + 1) j ⟨.table arr :: S, h, T, p⟩ stream) := by
  rw [dumpLoop_succ, hkey]
  refine Ends.bind (hvd _ h T _ (-1) 1 0 _ hg (validIndex_top _ _) (by rwa [valueAt_top])) ?_
  rintro L stream' ⟨h', T', p', rfl, hq, hg', hdata⟩
  have hget : rawField h' (.table ref) k = t.get k := by
    rw [rawField, (hg.trans hg').table ht, Option.elim_some]
  simp only [rawget_mk (.table arr :: S) _ _ _ hi (Nat.le_succ_of_le hle), slot_of_le hle, hs, hget]
  refine Ends.bind (hvd _ h' T' _ (-1) _ _ _ (hg.trans hg') (validIndex_top _ _)
    (by rwa [valueAt_top])) ?_
  rintro L stream'' ⟨h'', T'', p'', rfl, hq', hg'', hdata'⟩
  refine hrest h'' T'' p'' _ (hg'.trans hg'') ?_ ?_
  · -- the key and the value each have five slots above the array of keys and themselves
    exact (Thread.Quiet.push T p (by omega)).trans (hq.trans hq')
  rw [valueAt_top] at hdata hdata'
  simp only [BinaryWriter.data_writeChar, BinaryWriter.data_writeString, hdata', hdata, itemText]
  split_ifs <;> simp [lineBreak]

/-- The loop prints the entries of the keys that are left. -/
theorem dumpLoop_prints {a : LuaTable} :
    ∀ (pre ks : List LuaValue) (h : List LuaTable) (T : Thread) (p : Nat) (stream : BinaryWriter),
      a.entries = arrayEntries 1 (pre ++ ks) → (∀ k ∈ ks, Good k ∧ Good (t.get k)) →
      h[arr]? = some a → Grows h₀ h →
      Ends (Prints (S.length + 7) T p (.table arr :: S) h stream.data (ks.flatMap fun k =>
          itemText indent maxIndent (text k 1 0, text (t.get k) (indent + 1) maxIndent)))
        (dumpLoop vd i indent maxIndent ks.length (pre.length + 1) ⟨.table arr :: S, h, T, p⟩
          stream)
  | pre, [], h, T, p, stream, _, _, _, _ =>
    ⟨_, stream, rfl, h, T, p, rfl, .refl _ T p, Grows.refl h, by simp⟩
  | pre, k :: ks, h, T, p, stream, ha, hgood, harr, hg => by
    obtain ⟨hk, hval⟩ := hgood k (List.mem_cons_self ..)
    refine dumpLoop_item hvd hi hle hs ht indent maxIndent hk hval hg T p stream
      (rawField_key harr ha) ?_
    intro h' T' p' stream' hg' hq hdata
    have hrest := dumpLoop_prints (pre ++ [k]) ks h' T' p' stream'
      (by rw [ha, List.append_assoc, List.singleton_append])
      (fun k' hk' => hgood k' (List.mem_cons_of_mem _ hk')) (hg'.table harr) (hg.trans hg')
    rw [List.length_append, List.length_singleton] at hrest
    refine hrest.imp ?_
    rintro L stream'' ⟨h'', T'', p'', hL, hq', hg'', hd⟩
    refine ⟨h'', T'', p'', hL, hq.trans hq', hg'.trans hg'', ?_⟩
    rw [hd, hdata, List.flatMap_cons, List.append_assoc]

/-- Where a key or a value leaves slots on the stack, so does the loop. -/
theorem dumpLoop_leaves_some {n : Nat}
    (hleaves : ∀ S h T p idx indent maxIndent stream, T.tableLib = lib → LibraryTable h lib →
      ValidIndex S idx → Nested h n (valueAt S idx) →
        Ends (Leaves lib S h n 0) (vd idx indent maxIndent ⟨S, h, T, p⟩ stream))
    (hsome : ∀ S h T p idx indent maxIndent stream, Grows h₀ h → T.tableLib = lib →
      LibraryTable h lib → ValidIndex S idx → Nested h₀ n (valueAt S idx) →
      ¬ Good (valueAt S idx) →
        Ends (Leaves lib S h n 1) (vd idx indent maxIndent ⟨S, h, T, p⟩ stream))
    (hnested : Nested h₀ (n + 1) (.table ref)) {a : LuaTable} :
    ∀ (pre ks : List LuaValue) (h : List LuaTable) (T : Thread) (p : Nat) (stream : BinaryWriter),
      a.entries = arrayEntries 1 (pre ++ ks) → (∀ k ∈ ks, Nested h₀ n k) →
      (∃ k ∈ ks, ¬ (Good k ∧ Good (t.get k))) → h[arr]? = some a →
      Nested h (n + 1) (.table arr) → T.tableLib = lib → LibraryTable h lib → Grows h₀ h →
      Ends (Leaves lib S h (n + 1) 2)
        (dumpLoop vd i indent maxIndent ks.length (pre.length + 1) ⟨.table arr :: S, h, T, p⟩
          stream)
  | pre, [], _, _, _, _, _, _, ⟨_, hk, _⟩, _, _, _, _, _ => by cases hk
  | pre, k :: ks, h, T, p, stream, ha, hks, hbad, harr, hna, hl, hT, hg => by
    have hk := hks k (List.mem_cons_self ..)
    have hkey := rawField_key harr ha
    have hloop := dumpLoop_leaves hleaves hi hle hs indent maxIndent ks.length (pre.length + 1 + 1)
      fun _ => hk.pos
    have harray : ∀ {h'}, Grows h h' → ∀ x ∈ [LuaValue.table arr], Nested h' (n + 1) x := by
      intro h' hg' x hx
      rw [List.mem_singleton.mp hx]
      exact hna.grows hg'
    by_cases hgk : Good k
    · by_cases hgv : Good (t.get k)
      · -- the first entry is printed, and the slots are left later
        have hbad' : ∃ k ∈ ks, ¬ (Good k ∧ Good (t.get k)) := by
          obtain ⟨k', hk', hb⟩ := hbad
          rcases List.mem_cons.mp hk' with rfl | hk'
          · exact absurd ⟨hgk, hgv⟩ hb
          · exact ⟨k', hk', hb⟩
        refine dumpLoop_item hvd hi hle hs ht indent maxIndent hgk hgv hg T p stream hkey ?_
        intro h' T' p' stream' hg' hq _
        have hrest := dumpLoop_leaves_some hleaves hsome hnested (pre ++ [k]) ks h' T' p' stream'
          (by rw [ha, List.append_assoc, List.singleton_append])
          (fun k' hk' => hks k' (List.mem_cons_of_mem _ hk')) hbad' (hg'.table harr)
          (hna.grows hg') (hq.tableLib.trans hl) (hT.grows hg') (hg.trans hg')
        rw [List.length_append, List.length_singleton] at hrest
        exact hrest.imp fun L stream'' => Leaves.of_later hg' le_rfl
      · have hval : Nested h₀ n (t.get k) := by
          have := nested_rawField hk.pos hnested k
          rwa [rawField, ht, Option.elim_some] at this
        rw [List.length_cons, dumpLoop_succ, hkey]
        refine Ends.bind (hvd _ h T _ (-1) 1 0 _ hg (validIndex_top _ _) (by rwa [valueAt_top])) ?_
        rintro L stream' ⟨h', T', p', rfl, hq, hg', _⟩
        have hget : rawField h' (.table ref) k = t.get k := by
          rw [rawField, (hg.trans hg').table ht, Option.elim_some]
        simp only [rawget_mk (.table arr :: S) _ _ _ hi (Nat.le_succ_of_le hle), slot_of_le hle,
          hs, hget]
        refine Ends.bind (hsome _ h' T' _ (-1) _ _ _ (hg.trans hg') (hq.tableLib.trans hl)
          (hT.grows hg') (validIndex_top _ _) (by rwa [valueAt_top]) (by rwa [valueAt_top])) ?_
        rintro L stream'' ⟨Y, h'', T'', p'', rfl, hl'', hg'', hm, hY⟩
        have hgrow := hg.trans (hg'.trans hg'')
        refine (leaves_after_value hloop (R := [.table arr]) p'' _ hl'' ((hT.grows hg').grows hg'')
          (hnested.grows hgrow) hY (hval.grows hgrow) (harray (hg'.trans hg'')) Nat.one_pos).imp ?_
        exact fun L stream₃ => Leaves.of_later (hg'.trans hg'') (Nat.succ_le_succ hm)
    -- the key leaves slots, so that the value is looked up in the wrong place
    · rw [List.length_cons, dumpLoop_succ, hkey]
      refine Ends.bind (hsome _ h T _ (-1) 1 0 _ hg hl hT (validIndex_top _ _)
        (by rwa [valueAt_top]) (by rwa [valueAt_top])) ?_
      rintro L stream' ⟨X, h', T', p', rfl, hl', hg', hm, hX⟩
      refine (leaves_after_key hleaves hi hle hs indent maxIndent hloop (Q := [.table arr]) p' _ hl'
        (hT.grows hg') (hnested.grows (hg.trans hg')) hX (hk.grows (hg.trans hg')) (harray hg')
        Nat.one_pos).imp ?_
      exact fun L stream'' => Leaves.of_later hg' (Nat.succ_le_succ hm)

end Sorted

/-! ### Acyclic values whose tables can or cannot be sorted -/

/-- An acyclic value whose tables can be sorted. -/
def Printable (env : Env) (h : List LuaTable) (n : Nat) (v : LuaValue) : Prop :=
  Nested h n v ∧ Sortable env h v

/-- The items of the sorted keys. -/
theorem flatMap_sortedEntries {t : LuaTable} {ks : List LuaValue}
    (hks : t.sortedKeys env = some ks) {α β : Type} (f : LuaValue × LuaValue → α)
    (g : α → List β) :
    ((t.sortedEntries env).map f).flatMap g = ks.flatMap fun k => g (f (k, t.get k)) := by
  rw [LuaTable.sortedEntries, hks, Option.getD_some, List.map_map, List.flatMap_map]
  rfl

/-- Where the keys of all tables can be sorted, the printer prints the text of the value and leaves
the stack as it was. -/
theorem dumpValue_prints (hperm : env.sort.Permutes) {h₀ : List LuaTable} :
    ∀ fuel S h T p idx indent maxIndent stream, Grows h₀ h → ValidIndex S idx →
      Printable env h₀ fuel (valueAt S idx) →
        Ends (Prints (S.length + 5) T p S h stream.data
            (dumpText env (printOrder env h₀) fuel (valueAt S idx) indent maxIndent))
          (dumpValue env fuel idx indent maxIndent ⟨S, h, T, p⟩ stream)
  | 0, _, _, _, _, _, _, _, _, _, _, ⟨hn, _⟩ => hn.elim
  | fuel + 1, S, h, T, p, idx, indent, maxIndent, stream, hg, hidx, ⟨hn, hsortable⟩ => by
    by_cases hv : (valueAt S idx).type = .table
    · obtain ⟨ref, hv⟩ := exists_ref hv
      rw [hv] at hn hsortable ⊢
      obtain ⟨t, ht, he⟩ := hn
      obtain ⟨hself, hbelow⟩ := (sortable_table_iff ht).mp hsortable
      obtain ⟨ks, hkeys⟩ := Option.ne_none_iff_exists'.mp hself
      have hrun := run_of_sortedKeys hkeys
      have hks := hperm _ _ _ hrun
      have hlen : (printOrder env h₀ ref).length = ks.length := by
        rw [printOrder, ht, Option.elim_some, LuaTable.sortedEntries, hkeys, Option.getD_some,
          List.length_map]
      rw [dumpValue_sorted hidx hv (hg.table ht) indent maxIndent T p stream hks hrun]
      have hgrow := hg.trans (Grows.append h [setContents (keyArray t.keys) 1 ks])
      refine Ends.bind (dumpLoop_prints (dumpValue_prints hperm fuel) hidx.pos hidx.le hv ht indent
        maxIndent [] ks _ _ _ _ (entries_sorted hks) ?_ (by simp) hgrow) ?_
      · intro k hk
        obtain ⟨e, hm, rfl⟩ := List.mem_map.mp (hks.subset hk)
        rw [t.get_of_mem hm]
        exact ⟨⟨(he e hm).1, (hbelow e hm).1⟩, (he e hm).2, (hbelow e hm).2⟩
      · rintro L stream' ⟨h', T', p', rfl, hq, hg', hdata⟩
        refine ⟨_, _, rfl, h', T', p', rfl, (hq.mono (by simp [luaMinStack])).of_sort,
          (Grows.append h _).trans hg', ?_⟩
        rw [BinaryWriter.data_writeChar] at hdata
        rw [BinaryWriter.data_writeChar, dumpText, tableText, List.length_map, hlen]
        -- the loop goes through the sorted keys, the text through the sorted entries
        have hitems := flatMap_sortedEntries hkeys
          (fun e => (dumpText env (printOrder env h₀) fuel e.1 1 0,
            dumpText env (printOrder env h₀) fuel e.2 (indent + 1) maxIndent))
          (itemText indent maxIndent)
        rw [printOrder, ht, Option.elim_some, hitems]
        split_ifs <;> simp [hdata, lineBreak]
    · rw [dumpText_scalar hv]
      exact dumpValue_scalar hv indent maxIndent _ T p stream

/-- Where the keys of some table cannot be sorted, slots are left on the stack. -/
theorem dumpValue_leaves_some (hsort : env.sort.Rearranges) {h₀ : List LuaTable} :
    ∀ fuel S h T p idx indent maxIndent stream, Grows h₀ h → T.tableLib = lib →
      LibraryTable h lib → ValidIndex S idx → Nested h₀ fuel (valueAt S idx) →
      ¬ Printable env h₀ fuel (valueAt S idx) →
        Ends (Leaves lib S h fuel 1) (dumpValue env fuel idx indent maxIndent ⟨S, h, T, p⟩ stream)
  | 0, _, _, _, _, _, _, _, _, _, _, _, _, hn, _ => hn.elim
  | fuel + 1, S, h, T, p, idx, indent, maxIndent, stream, hg, hl, hT, hidx, hn, hbad => by
    by_cases hv : (valueAt S idx).type = .table
    · obtain ⟨ref, hv⟩ := exists_ref hv
      rw [hv] at hn hbad
      obtain ⟨t, ht, he⟩ := id hn
      cases hrun : (env.sort t.keys).run (sortComp env) with
      | error ks =>
        have hks := hsort _ _ _ (Or.inr hrun)
        rw [dumpValue_unsorted hidx hv (hg.table ht) indent maxIndent T p stream (hl ▸ hT) hrun]
        refine ⟨_, _, rfl, [.table h.length], _, _, _, rfl, by simpa using hl, Grows.append h _,
          le_rfl, ?_⟩
        intro v hv
        rw [List.mem_singleton.mp hv]
        exact nested_sorted hks fun e hm => (he e hm).1.grows hg
      | ok ks =>
        have hks := hsort _ _ _ (Or.inl hrun)
        rw [dumpValue_sorted hidx hv (hg.table ht) indent maxIndent T p stream hks hrun]
        have hg' := Grows.append h [setContents (keyArray t.keys) 1 ks]
        refine Ends.bind (dumpLoop_leaves_some (dumpValue_prints hsort.permutes fuel) hidx.pos
          hidx.le hv ht indent maxIndent (dumpValue_leaves hsort fuel)
          (dumpValue_leaves_some hsort fuel) hn [] ks _ _ _ _ (entries_sorted hks) ?_ ?_ (by simp)
          (nested_sorted hks fun e hm => (he e hm).1.grows hg) (by simpa using hl) (hT.grows hg')
          (hg.trans hg')) ?_
        · intro k hk
          obtain ⟨e, hm, rfl⟩ := List.mem_map.mp (hks.subset hk)
          exact (he e hm).1
        · -- this table is sorted, so some key or value is not
          by_contra hall
          push Not at hall
          refine hbad ⟨hn, (sortable_table_iff ht).mpr ⟨?_, fun e hm => ?_⟩⟩
          · rw [LuaTable.sortedKeys, hrun]
            simp
          · obtain ⟨hk, hval⟩ := hall e.1 (hks.symm.subset (List.mem_map_of_mem hm))
            rw [t.get_of_mem hm] at hval
            exact ⟨hk.2, hval.2⟩
        · rintro L stream' ⟨extra, h', T', p', rfl, hl', hg'', hm, hextra⟩
          obtain ⟨w, extra, rfl⟩ := List.exists_cons_of_length_pos (Nat.lt_of_succ_lt hm)
          exact ⟨_, _, rfl, extra, h', T', p', rfl, hl', hg'.trans hg'', Nat.le_of_succ_le_succ hm,
            fun v hv => hextra v (List.mem_cons_of_mem _ hv)⟩
    · exact absurd ⟨hn, sortable_of_not_table hv⟩ hbad

end LuaBinaryTable
