import LuaBinaryTable.Document.Equiv.Canonical
import LuaBinaryTable.RoundTrip

/-!
# Canonical output

Two presentations of one tidy value are written as the same bytes, and so is the value that is
read back from these bytes, as far as the slots of the stack go
(`writeBinaryTable_canonical_iff`).  Under the limits of the format other values are written as
other bytes, and no file begins another (`writeBinaryTable_eq_iff`).
-/

namespace LuaBinaryTable

open Reader

variable {env : Env} {h h' : List LuaTable}

/-- Values with the same content whose layouts are complete, each with its own fuel, have one
layout. -/
theorem layout_eq_of_complete (hperm : env.sort.Permutes) (hsorts : env.sort.Sorts)
    {v w : LuaValue} (ht : Tidy h v) (hs : SameValue h h' v w) {fuel fuel' : Nat}
    (hc : (layout env h fuel v).Complete) (hc' : (layout env h' fuel' w).Complete) :
    layout env h' fuel' w = layout env h fuel v := by
  calc layout env h' fuel' w = layout env h' (max fuel fuel') w :=
        (layout_of_complete hperm hc' (le_max_right _ _)).symm
    _ = layout env h (max fuel fuel') v := (layout_eq_of_same hsorts _ v w ht hs).symm
    _ = layout env h fuel v := layout_of_complete hperm hc (le_max_left _ _)

/-- Where a value is written, one with the same content is written as the same bytes, from some fuel
on, and takes the same slots. -/
theorem writes_same (hperm : env.sort.Permutes) (hsorts : env.sort.Sorts)
    {S' : List LuaValue} {idx' : Int} (hidx' : ValidIndex S' idx') {v : LuaValue}
    (ht : Tidy h v) (hs : SameValue h h' v (valueAt S' idx')) {fuel : Nat}
    (hc : (layout env h fuel v).Complete) (T' : Thread) :
    ∃ n, ∀ fuel', n ≤ fuel' → ∃ L,
      writeBinaryTable env fuel' (.entry S' h' T') idx' =
          .returns (some (layout env h fuel v).file, L) ∧
        (¬ L.Overrun ↔ (layout env h fuel v).BufferFits env S'.length T'.slots) := by
  obtain ⟨m, hm⟩ := ht.acyclic.exists_nested
  refine ⟨max m fuel, fun fuel' hle => ?_⟩
  have hlay : layout env h' fuel' (valueAt S' idx') = layout env h fuel v := by
    rw [← layout_eq_of_same hsorts fuel' _ _ ht hs,
      layout_of_complete hperm hc ((le_max_right _ _).trans hle)]
  obtain ⟨h'', _, hr⟩ := writeBinaryTable_of_stops hperm hidx' (ht.of_same hs).acyclic T' hlay
    (by rw [show (layout env h fuel v).stops = none from hc]; simp)
  rw [if_pos hc] at hr
  exact ⟨_, hr, not_overrun_iff⟩

/-- The value that the decoder reads back from the bytes `e`, which a run has written that ends in
the state `L`, is written as them again, and none of the three runs writes behind the buffer of the
stack. -/
def Rewrites (env : Env) (sizes : TableSizes) (e : Bytes) (L : LuaState) (S' : List LuaValue)
    (h' : List LuaTable) (T' : Thread) : Prop :=
  ¬ L.Overrun ∧ ∃ s v, parseBinaryTable sizes (.entry S' h' T') e = .returns (1, s) ∧
    ¬ s.L.Overrun ∧ s.L.stack = v :: S' ∧ ∃ n, ∀ fuel, n ≤ fuel → ∃ L',
      writeBinaryTable env fuel (.entry s.L.stack s.L.heap s.L.thread) (-1) =
        .returns (some e, L') ∧ ¬ L'.Overrun

/-- What the three runs take, for the file of a complete layout. -/
theorem rewrites_iff (hperm : env.sort.Permutes) (hsorts : env.sort.Sorts) {limit : Nat}
    {sizes : TableSizes} (hlimit : limit ≤ 2 ^ 31) (hsizes : Accepts sizes limit) {v : LuaValue}
    (ht : Tidy h v) (hp : Portable limit h v) {fuel : Nat} (hc : (layout env h fuel v).Complete)
    (hpool : ((layout env h fuel v).collect []).length < limit) (L : LuaState) (S' : List LuaValue)
    (h' : List LuaTable) (T' : Thread) :
    Rewrites env sizes (layout env h fuel v).file L S' h' T' ↔
      ¬ L.Overrun ∧ S'.length + (1 + (layout env h fuel v).slots sizes) ≤ T'.slots ∧
        (layout env h fuel v).BufferFits env (S'.length + 1) T'.slots := by
  -- the copy is written from the slot above what the reader found
  obtain ⟨s, w, hparse, hover, _, hstack, hsame⟩ :=
    parse_file hperm hlimit hsizes hp hc hpool [] S' h' T'
  rw [List.append_nil] at hparse
  have hw : valueAt (w :: S') (-1) = w := valueAt_top w S'
  obtain ⟨n, hn⟩ := writes_same hperm hsorts (validIndex_top w S') ht
    (by rw [hw]; exact hsame.mono (Nat.zero_le _)) hc s.L.thread
  refine and_congr_right' ?_
  constructor
  · rintro ⟨s', w', hparse', hover', hstack', m, hm⟩
    rw [hparse] at hparse'
    cases hparse'
    obtain ⟨L', hr', hfits⟩ := hn (max m n) (le_max_right m n)
    obtain ⟨L'', hr'', hover''⟩ := hm (max m n) (le_max_left m n)
    rw [hstack, hr'] at hr''
    cases hr''
    rw [thread_parseBinaryTable hparse] at hfits
    exact ⟨hover.mp hover', hfits.mp hover''⟩
  · rintro ⟨hread, hwrite⟩
    refine ⟨s, w, hparse, hover.mpr hread, hstack, n, fun fuel' hle => ?_⟩
    obtain ⟨L', hr', hfits⟩ := hn fuel' hle
    rw [thread_parseBinaryTable hparse] at hfits
    rw [hstack]
    exact ⟨L', hr', hfits.mpr hwrite⟩

/-- Two presentations of a tidy value are written as the same bytes whenever both are written.
Under the limits of the format the value read back from these bytes is written as them again
exactly where the document fits the buffers of the three runs. -/
theorem writeBinaryTable_canonical_iff (hperm : env.sort.Permutes) (hsorts : env.sort.Sorts)
    {S : List LuaValue} {idx : Int} (hidx : ValidIndex S idx) (ht : Tidy h (valueAt S idx))
    {T : Thread} {fuel : Nat} {e : Bytes} {L : LuaState}
    (hw : writeBinaryTable env fuel (.entry S h T) idx = .returns (some e, L)) :
    (∀ (S' : List LuaValue) (h' : List LuaTable) (T' : Thread) (idx' : Int) (fuel' : Nat)
      (e' : Bytes), ValidIndex S' idx' → SameValue h h' (valueAt S idx) (valueAt S' idx') →
      written (writeBinaryTable env fuel' (.entry S' h' T') idx') = some e' → e' = e) ∧
    ∀ (limit : Nat) (sizes : TableSizes), limit ≤ 2 ^ 31 → Accepts sizes limit →
      Portable limit h (valueAt S idx) →
      ((layout env h fuel (valueAt S idx)).collect []).length < limit →
      ∀ (S' : List LuaValue) (h' : List LuaTable) (T' : Thread),
        Rewrites env sizes e L S' h' T' ↔
          (layout env h fuel (valueAt S idx)).BufferFits env S.length T.slots ∧
          S'.length + (1 + (layout env h fuel (valueAt S idx)).slots sizes) ≤ T'.slots ∧
          (layout env h fuel (valueAt S idx)).BufferFits env (S'.length + 1) T'.slots := by
  obtain ⟨hc, he⟩ := layout_of_writeBinaryTable hperm hidx ht.acyclic (congrArg written hw)
  constructor
  · intro S' h' T' idx' fuel' e' hidx' hs hw'
    have ha' := (ht.of_same hs).acyclic
    obtain ⟨hc', rfl⟩ := layout_of_writeBinaryTable hperm hidx' ha' hw'
    rw [he, layout_eq_of_complete hperm hsorts ht hs hc hc']
  · intro limit sizes hlimit hsizes hp hpool S' h' T'
    rw [← overrun_of_layout hperm hidx ht.acyclic hw, he]
    exact rewrites_iff hperm hsorts hlimit hsizes ht hp hc hpool L S' h' T'

/-- Two names, entered in either order. -/
def pairTable (first second : Bytes) : LuaTable :=
  (LuaTable.empty.set (.string first) (.boolean true)).set (.string second) (.boolean true)

theorem sameValue_pairTable :
    SameValue [pairTable [97] [98]] [pairTable [98] [97]] (.table 0) (.table 0) := by
  have hentries : (pairTable [97] [98]).entries =
      [(.string [97], .boolean true), (.string [98], .boolean true)] := by decide
  have hentries' : (pairTable [98] [97]).entries =
      [(.string [98], .boolean true), (.string [97], .boolean true)] := by decide
  refine @SameFrom.of_entries 0 _ _ 0 0 (pairTable [97] [98]) (pairTable [98] [97]) _ _ rfl rfl
    (Nat.zero_le _) (List.Perm.refl _) ?_ (List.forall₂_same.mpr fun e he => ?_)
  · rw [hentries, hentries']
    exact List.Perm.swap _ _ _
  · rw [hentries] at he
    simp only [List.mem_cons, List.not_mem_nil, or_false] at he
    rcases he with rfl | rfl <;> exact ⟨.scalar (by decide), .scalar (by decide)⟩

theorem tidy_pairTable : Tidy [pairTable [97] [98]] (.table 0) := by
  have hentries : (pairTable [97] [98]).entries =
      [(.string [97], .boolean true), (.string [98], .boolean true)] := by decide
  refine .table rfl (fun e he => ?_) ⟨0, fun i _ => ?_⟩ fun e he => ?_
  · rw [hentries] at he
    simp only [List.mem_cons, List.not_mem_nil, or_false] at he
    rcases he with rfl | rfl <;> exact Or.inr rfl
  · have hget : (pairTable [97] [98]).get (integer ↑(i + 1)) = .nil := rfl
    exact iff_of_false (not_not.mpr hget) (Nat.not_lt_zero i)
  · rw [hentries] at he
    simp only [List.mem_cons, List.not_mem_nil, or_false] at he
    rcases he with rfl | rfl <;> exact .scalar (by decide)

theorem portable_pairTable {first second : Bytes} (hentries : (pairTable first second).entries =
      [(.string first, .boolean true), (.string second, .boolean true)])
    (hfirst : first.length < 2 ^ 16) (hsecond : second.length < 2 ^ 16) :
    Portable 3 [pairTable first second] (.table 0) := by
  have hstring : ∀ s : Bytes, s.length < 2 ^ 16 →
      Portable 3 [pairTable first second] (.string s) := by
    intro s hs
    refine .scalar (by simp [LuaValue.type]) (by simp) fun s' heq => ?_
    cases heq
    exact hs
  refine .table rfl (by rw [hentries]; exact Nat.lt_succ_self 2) ⟨0, fun i _ => ?_⟩ (fun e he => ?_)
    fun e he => ?_
  · have hget : (pairTable first second).get (integer ↑(i + 1)) = .nil := by
      rw [LuaTable.get, hentries]
      rfl
    exact iff_of_false (not_not.mpr hget) (Nat.not_lt_zero i)
  · rw [hentries] at he
    simp only [List.mem_cons, List.not_mem_nil, or_false] at he
    rcases he with rfl | rfl
    · exact hstring first hfirst
    · exact hstring second hsecond
  · rw [hentries] at he
    simp only [List.mem_cons, List.not_mem_nil, or_false] at he
    rcases he with rfl | rfl <;> exact .scalar (by simp [LuaValue.type]) (by simp) (by simp)

theorem written_pairTable :
    written (writeBinaryTable .plain 3 (.entry [.table 0] [pairTable [97] [98]] (.fresh .nil)) (-1)) =
        some [98, 116, 1, 0, 2, 0, 0, 0, 1, 0, 97, 1, 0, 98, 21, 2, 13, 1, 2, 13, 2, 2] ∧
      written (writeBinaryTable .plain 3 (.entry [.table 0] [pairTable [98] [97]] (.fresh .nil)) (-1)) =
        some [98, 116, 1, 0, 2, 0, 0, 0, 1, 0, 97, 1, 0, 98, 21, 2, 13, 1, 2, 13, 2, 2] := by
  decide +kernel

/-- Whichever name is entered first, the bytes are the same, and they are written again for what is
read back from them. -/
theorem writeBinaryTable_canonical_pairTable :
    written (writeBinaryTable .plain 3 (.entry [.table 0] [pairTable [98] [97]] (.fresh .nil)) (-1)) =
        some [98, 116, 1, 0, 2, 0, 0, 0, 1, 0, 97, 1, 0, 98, 21, 2, 13, 1, 2, 13, 2, 2] ∧
      ∃ L, Rewrites .plain (fun _ _ => true)
        [98, 116, 1, 0, 2, 0, 0, 0, 1, 0, 97, 1, 0, 98, 21, 2, 13, 1, 2, 13, 2, 2] L [] []
        (.fresh .nil) := by
  obtain ⟨L, hw⟩ := exists_state_of_written written_pairTable.1
  have hcanonical := @writeBinaryTable_canonical_iff .plain [pairTable [97] [98]]
    insertionSort_permutes insertionSort_sorts [.table 0] (-1) (validIndex_top _ []) tidy_pairTable
    (.fresh .nil) 3 _ L hw
  constructor
  · have hsome : (written (writeBinaryTable .plain 3
        (.entry [.table 0] [pairTable [98] [97]] (.fresh .nil)) (-1))).isSome = true := by
      rw [written_pairTable.2]
      rfl
    obtain ⟨e, hw'⟩ := Option.isSome_iff_exists.mp hsome
    rw [hw', hcanonical.1 _ _ _ _ _ _ (validIndex_top _ []) sameValue_pairTable hw']
  · exact ⟨L, (hcanonical.2 3 (fun _ _ => true) (by decide) (fun _ _ => ⟨rfl, rfl⟩)
      (portable_pairTable (by decide) (by decide) (by decide)) (by decide) [] []
      (.fresh .nil)).mpr (by decide)⟩

/-! ### Deep nesting -/

theorem tidy_nestedUnder (n : Nat) : ∀ m i : Nat, i + (m + 1) = n →
    Tidy (nestedUnder (.string [97]) n) (.table i) :=
  nestedUnder_induction rfl n (.scalar (by decide)) fun ref t v ht he hv => by
    refine .table ht (fun e hm => ?_) (contiguous_of_string he) fun e hm => ?_
    · rw [he] at hm
      obtain rfl := List.mem_singleton.mp hm
      exact Or.inr rfl
    · rw [he] at hm
      obtain rfl := List.mem_singleton.mp hm
      exact hv

/-- Thirty tables in one another, each under a name, are written in a fresh Lua state, but reading
them back takes more slots than there are. -/
theorem not_rewrites_nested :
    Tidy (nestedUnder (.string [97]) 30) (.table 0) ∧
      Portable 2 (nestedUnder (.string [97]) 30) (.table 0) ∧
      ∃ e L, writeBinaryTable .plain 31
          (.entry [.table 0] (nestedUnder (.string [97]) 30) (.fresh .nil)) (-1) =
          .returns (some e, L) ∧ ¬ L.Overrun ∧
        ¬ Rewrites .plain (fun _ _ => true) e L [] [] (.fresh .nil) := by
  have ht := tidy_nestedUnder 30 29 0 rfl
  have hp := portable_nestedUnder 30 29 0 rfl
  have hn := @nested_nestedUnder (.string [97]) rfl 30 (by decide) 29 0 rfl
  obtain ⟨hc, hpool, hfits, hslots⟩ := layout_nestedUnder
  obtain ⟨h', _, hw⟩ := @writeBinaryTable_of_nested .plain _ insertionSort_permutes [.table 0] (-1)
    (validIndex_top _ []) 31 hn (.fresh .nil) 31 le_rfl
  rw [valueAt_top, if_pos hc] at hw
  refine ⟨ht, hp, _, _, hw, not_overrun_iff.mpr hfits, fun hrewrites => ?_⟩
  have hread := ((rewrites_iff insertionSort_permutes insertionSort_sorts
    (show 2 ≤ 2 ^ 31 by decide) (fun _ _ => ⟨rfl, rfl⟩) ht hp hc hpool _ [] []
    (.fresh .nil)).mp hrewrites).2.1
  rw [List.length_nil, Nat.zero_add] at hread
  exact absurd hread (Nat.not_le_of_gt hslots)

/-! ### Equal bytes -/

/-- The bytes of a value are its content: two values are written as the same bytes exactly where
they have the same content.  And no file is the beginning of another one, so that the files of any
number of values can stand behind one another. -/
theorem writeBinaryTable_eq_iff (hperm : env.sort.Permutes) (hsorts : env.sort.Sorts) {limit : Nat}
    (hlimit : limit ≤ 2 ^ 31) {S S' : List LuaValue} {idx idx' : Int} (hidx : ValidIndex S idx)
    (hidx' : ValidIndex S' idx') (ht : Tidy h (valueAt S idx))
    (hp : Portable limit h (valueAt S idx)) (hp' : Portable limit h' (valueAt S' idx'))
    {T T' : Thread} {fuel fuel' : Nat} {e e' : Bytes}
    (hw : written (writeBinaryTable env fuel (.entry S h T) idx) = some e)
    (hw' : written (writeBinaryTable env fuel' (.entry S' h' T') idx') = some e')
    (hpool : ((layout env h fuel (valueAt S idx)).collect []).length < limit)
    (hpool' : ((layout env h' fuel' (valueAt S' idx')).collect []).length < limit) :
    (e = e' ↔ SameValue h h' (valueAt S idx) (valueAt S' idx')) ∧ (e <+: e' → e = e') := by
  obtain ⟨hc, rfl⟩ := layout_of_writeBinaryTable hperm hidx hp.acyclic hw
  obtain ⟨hc', rfl⟩ := layout_of_writeBinaryTable hperm hidx' hp'.acyclic hw'
  -- the decoder stops where the shorter file ends, with a copy of either value
  have hstart : (layout env h fuel (valueAt S idx)).file <+:
      (layout env h' fuel' (valueAt S' idx')).file →
      (layout env h fuel (valueAt S idx)).file = (layout env h' fuel' (valueAt S' idx')).file ∧
        SameValue h h' (valueAt S idx) (valueAt S' idx') := by
    intro hle
    have ⟨suffix, hfile⟩ := hle
    have hsizes : Accepts (fun _ _ => true) limit := fun _ _ => ⟨rfl, rfl⟩
    obtain ⟨s, w, hparse, _, hend, hstack, hsame⟩ :=
      parse_file hperm hlimit hsizes hp hc hpool suffix [] [] (.fresh .nil)
    obtain ⟨s', w', hparse', _, hend', hstack', hsame'⟩ :=
      parse_file hperm hlimit hsizes hp' hc' hpool' [] [] [] (.fresh .nil)
    rw [List.append_nil, ← hfile, hparse] at hparse'
    cases hparse'
    cases hstack.symm.trans hstack'
    exact ⟨hle.eq_of_length (hend.symm.trans hend'), hsame.of_common hsame'⟩
  refine ⟨⟨fun he => ?_, fun hs => ?_⟩, fun hle => (hstart hle).1⟩
  · exact (hstart (he ▸ List.prefix_refl _)).2
  · rw [layout_eq_of_complete hperm hsorts ht hs hc hc']

/-- The tables of two names entered in either order have the same content, for they are written as
the same bytes. -/
theorem writeBinaryTable_eq_iff_pairTable :
    SameValue [pairTable [97] [98]] [pairTable [98] [97]] (.table 0) (.table 0) :=
  (@writeBinaryTable_eq_iff .plain [pairTable [97] [98]] [pairTable [98] [97]]
    insertionSort_permutes insertionSort_sorts 3 (by decide) [.table 0] [.table 0] (-1) (-1)
    (validIndex_top _ []) (validIndex_top _ []) tidy_pairTable
    (portable_pairTable (by decide) (by decide) (by decide))
    (portable_pairTable (by decide) (by decide) (by decide)) (.fresh .nil) (.fresh .nil) 3 3
    [98, 116, 1, 0, 2, 0, 0, 0, 1, 0, 97, 1, 0, 98, 21, 2, 13, 1, 2, 13, 2, 2]
    [98, 116, 1, 0, 2, 0, 0, 0, 1, 0, 97, 1, 0, 98, 21, 2, 13, 1, 2, 13, 2, 2]
    written_pairTable.1 written_pairTable.2 (by decide) (by decide)).1.mp rfl

end LuaBinaryTable
