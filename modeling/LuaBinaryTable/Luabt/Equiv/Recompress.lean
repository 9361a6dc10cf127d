import LuaBinaryTable.BinaryTable.Equiv.Session
import LuaBinaryTable.Lua.Nodes
import LuaBinaryTable.Luabt.Equiv.Files
import LuaBinaryTable.RoundTrip.Dump

/-!
# Decompressed and compressed again

`Tool.run_recompress`: where `luabt -d` makes a Lua file of a document and `luabt -c` a document
of this file, the two documents are the same, byte for byte, for every value that can be printed
without loss and that the Lua compiler has room for.
-/

namespace LuaBinaryTable

open LuaValue Reader

variable {env : Env} {base : Nat} {h h' : List LuaTable} {v w : LuaValue}

/-! ### Values that can be printed -/

/-- A copy can be printed where the value can. -/
theorem Dumpable.of_same (hd : Dumpable h v) (hs : SameFrom base h h' v w) : Dumpable h' w := by
  induction hd generalizing w with
  | boolean b =>
    rcases hs.scalar_cases (by simp [type]) with rfl | ⟨_, _, hx, _⟩
    · exact .boolean b
    · cases hx
  | string hstr =>
    rcases hs.scalar_cases (by simp [type]) with rfl | ⟨_, _, hx, _⟩
    · exact .string hstr
    · cases hx
  | @number x hx hlt =>
    rcases hs.scalar_cases (by simp [type]) with rfl | ⟨_, y, hx', rfl, hxy⟩
    · exact .number hx hlt
    · cases hx'
      obtain ⟨_, hnan, rfl | ⟨_, hzero⟩⟩ := Binary64.equal_iff.mp hxy
      · exact .number hx hlt
      · -- the other zero
        have hunits : y.units = 0 := Binary64.units_eq_zero_of_magnitude hzero
        refine .number (Binary64.isIntegral_iff.mpr ⟨hnan, ?_⟩) ?_
        · rw [hzero, Binary64.unitsOf_zero]
          exact dvd_zero _
        · rw [Binary64.trunc, hunits, Int.zero_tdiv]
          norm_num
  | table ht kinds _ _ ihk ihv =>
    obtain ⟨ref', t', rfl, ht', hst⟩ := sameTable_of_same ht hs
    refine .table ht' (hst.kinds_right kinds) (fun e' he' => ?_) fun e' he' => ?_
    · obtain ⟨e, he, hee⟩ := hst.left e' he'
      exact ihk e he hee.1
    · obtain ⟨e, he, hee⟩ := hst.left e' he'
      exact ihv e he hee.2

/-- A value that can be stored and printed is tidy. -/
theorem Dumpable.tidy {limit : Nat} (hd : Dumpable h v) (hp : Portable limit h v) : Tidy h v := by
  induction hd with
  | table ht kinds _ _ _ ihv =>
    obtain ⟨t, ht', _, hcont, _, hv⟩ := hp.exists_table
    cases ht.symm.trans ht'
    exact .table ht kinds hcont fun e he => ihv e he (hv e he)
  | _ => exact .scalar (by simp [type])

/-! ### The size of the expression -/

theorem depth_fieldsOf {f : LuaValue → Exp} {n : Nat} : ∀ {es : Entries},
    (∀ e ∈ es, (f e.1).depth ≤ n ∧ (f e.2).depth ≤ n) → (fieldsOf f es).depth ≤ n
  | [], _ => Nat.zero_le n
  | e :: es, he => by
    have hhead := he e (List.mem_cons_self ..)
    have htail := depth_fieldsOf fun e' he' => he e' (List.mem_cons_of_mem _ he')
    exact max_le (max_le hhead.1 hhead.2) htail

theorem size_fieldsOf (f : LuaValue → Exp) : ∀ es : Entries,
    (fieldsOf f es).size = (es.map fun e => (f e.1).size + (f e.2).size).sum
  | [] => rfl
  | e :: es => by
    rw [fieldsOf, Fields.size, size_fieldsOf f es, List.map_cons, List.sum_cons]

section

variable {order : Nat → Entries}

/-- Constructors are nested no deeper than the tables. -/
theorem depth_expression (horder : ∀ r t, h[r]? = some t → ∀ e ∈ order r, e ∈ t.entries) :
    ∀ (k n : Nat) (v : LuaValue), Nested h k v → (expression order n v).depth ≤ k
  | k + 1, 0, v, _ => by cases v <;> simp [expression, Exp.depth, Fields.depth]
  | k + 1, n + 1, v, hk => by
    cases v with
    | table ref =>
      obtain ⟨t, ht, he⟩ := hk
      refine Nat.succ_le_succ (depth_fieldsOf fun e hm => ?_)
      have hmem := he e (horder ref t ht e hm)
      exact ⟨depth_expression horder k n _ hmem.1, depth_expression horder k n _ hmem.2⟩
    | _ => simp [expression, Exp.depth, Fields.depth]

/-- There is an expression for each node. -/
theorem size_expression (horder : ∀ r t, h[r]? = some t →
    (∀ e ∈ t.entries, e.1.type = .number ∨ e.1.type = .string) → (order r).Perm t.entries) :
    ∀ (n : Nat) (v : LuaValue), Nested h n v → Dumpable h v →
      (expression order n v).size = nodes h n v
  | n + 1, v, hn, hd => by
    cases v with
    | table ref =>
      obtain ⟨t, ht, he⟩ := hn
      obtain ⟨t', ht', kinds, hk, hv⟩ := hd.exists_table
      cases ht.symm.trans ht'
      have hperm := horder ref t ht kinds
      rw [nodes_table ht, expression, Exp.size, size_fieldsOf, Nat.add_comm]
      congr 1
      rw [← (hperm.map fun e => nodes h n e.1 + nodes h n e.2).sum_eq]
      congr 1
      refine List.map_congr_left fun e hm => ?_
      have hmem := hperm.subset hm
      rw [size_expression horder n _ (he e hmem).1 (hk e hmem),
        size_expression horder n _ (he e hmem).2 (hv e hmem)]
    | _ => rfl

end

/-! ### The text -/

/-- The order in which a value is printed has all entries of its tables. -/
theorem printOrder_perm (hperm : env.sort.Permutes) (hsorts : env.sort.Sorts) {r : Nat}
    {t : LuaTable} (ht : h[r]? = some t)
    (kinds : ∀ e ∈ t.entries, e.1.type = .number ∨ e.1.type = .string) :
    (printOrder env h r).Perm t.entries := by
  obtain ⟨ks, hks⟩ := Option.ne_none_iff_exists'.mp (@sorted_of_kinds env hsorts t kinds)
  rw [printOrder, ht, Option.elim_some]
  exact sortedEntries_perm (hperm _ _ _ (run_of_sortedKeys hks)) hks

/-- The expression of a small value has room in the compiler. -/
theorem fits_expression (hperm : env.sort.Permutes) (hsorts : env.sort.Sorts) {n : Nat}
    (hn : Nested h n v) (hd : Dumpable h v) (hdeep : Nested h 100 v)
    (hsize : nodes h 100 v ≤ 2 ^ 17) : (expression (printOrder env h) n v).Fits := by
  refine ⟨depth_expression (fun _ _ ht => mem_printOrder hperm ht) 100 n v hdeep, ?_⟩
  rw [size_expression (fun _ _ ht => printOrder_perm hperm hsorts ht) n v hn hd,
    nodes_of_nested hn hdeep]
  exact hsize

namespace Luabt

variable {tool : Tool} {limit : Nat} {snap : Snapshot}

/-- The script that is the dump of a value is evaluated to a value with its content. -/
theorem runs_dump (hperm : tool.host.env.sort.Permutes) (hsorts : tool.host.env.sort.Sorts)
    (heval : tool.Evaluates) (hd : Dumpable h v) (hdeep : Nested h 100 v)
    (hsize : nodes h 100 v ≤ 2 ^ 17) {text : Bytes} (htext : PrintsAs tool.host.env h v 99 text) :
    tool.loads text = true ∧ ∀ (name : Bytes) (w : World), ∃ u g slots, w.thread.slots ≤ slots ∧
      tool.runs text name w =
        .returns (u, { w with heap := g, thread := { w.thread with slots := slots } }) ∧
      Grows w.heap g ∧ SameFrom w.heap.length h g v u := by
  obtain ⟨n, hn, rfl⟩ := htext
  obtain ⟨hloads, hruns⟩ := heval _ _ _ (lex_dump hperm hn hd 99) (parseChunk_tokens _)
    (fits_expression hperm hsorts hn hd hdeep hsize)
  refine ⟨hloads, fun name w => ?_⟩
  obtain ⟨slots, hle, hrun⟩ := hruns name w
  refine ⟨_, _, slots, hle, hrun, ?_⟩
  rw [Exp.eval_eq]
  exact ⟨Doc.grows_materialise _ _, copies_expression hperm hsorts n v hn hd w.heap⟩

/-- A script whose value has a complete layout that fits the buffer of the stack is compressed to
the file of it. -/
theorem compressFile_returns (hperm : tool.host.env.sort.Permutes) {w : World}
    {srcFile dstFile text : Bytes} (hfile : w.files (cString srcFile) = some text)
    (hloads : tool.loads text = true) {u : LuaValue} {g : List LuaTable}
    {T : Thread} (hruns : tool.runs text srcFile w = .returns (u, ⟨g, T, w.files⟩))
    (hconsole : T.console = w.thread.console) (ha : Acyclic g u) {fuel : Nat} {d : Doc}
    (hlayout : layout tool.host.env g fuel u = d) (hc : d.Complete)
    (hfits : d.BufferFits tool.host.env 1 T.slots)
    (hwrite : tool.host.writable (cString dstFile) = true) :
    ∃ w', compressFile tool fuel srcFile dstFile w = .returns ([], w') ∧
      w'.thread.console = w.thread.console ∧
        w'.files = w.files.write (cString dstFile) d.file := by
  rw [← valueAt_top u []] at ha hlayout
  obtain ⟨h', _, hrun⟩ := writeBinaryTable_of_stops hperm (validIndex_top u []) ha T hlayout
    (by rw [show d.stops = none from hc]; simp)
  rw [if_pos hc] at hrun
  have hover := @not_overrun_iff tool.host.env d [u] h' T
  refine ⟨⟨h', d.threadWritten tool.host.env [u].length [u].length T,
    w.files.write (cString dstFile) d.file⟩, ?_,
    (Doc.console_threadWritten hc _ _ T).trans hconsole, rfl⟩
  rw [compressFile, hfile]
  simp only [hloads, hruns, hrun, hwrite, if_true]
  exact if_neg (hover.mpr hfits)

/-- Where `luabt -d` makes a Lua file of the document of a value, and `luabt -c` a document of
that file, the bytes are those of the first document.  The value is one that can be stored and
printed without loss, with tables nested at most 100 deep and at most `2^17` nodes, and the buffer
of the stack has the slots to read and to write it, however large the script leaves it. -/
theorem Tool.run_recompress (hsort : tool.host.env.sort.Rearranges)
    (hsorts : tool.host.env.sort.Sorts) (hT : LibraryTable tool.heap tool.thread.tableLib)
    (heval : tool.Evaluates) (hlimit : limit ≤ 2 ^ 31) (hsizes : Accepts tool.host.sizes limit)
    (hstorable : snap.Storable tool.host.env limit) (hdump : Dumpable snap.heap snap.value)
    (hdeep : Nested snap.heap 100 snap.value) (hnodes : nodes snap.heap 100 snap.value ≤ 2 ^ 17)
    {files : Files} {archive script archive' : Bytes} {data : Bytes}
    (hdata : files (cString archive) = some data)
    (hencodes : EncodesTo tool.host.env snap.heap snap.value (some data)) {argv argv' : List Bytes}
    (hmain : main argv = .decompressFile archive script)
    (hmain' : main argv' = .compressFile script archive')
    (hroom : HasRoom tool files archive tool.thread.slots)
    (hfits : ∀ slots, tool.thread.slots ≤ slots →
      (layout tool.host.env snap.heap 100 snap.value).BufferFits tool.host.env 1 slots)
    (hscript : tool.host.writable (cString script) = true)
    (harchive : tool.host.writable (cString archive') = true) :
    ∃ m, ∀ fuel, m ≤ fuel → ∃ text,
      tool.run fuel argv files = .returns ([], files.write (cString script) text) ∧
        tool.run fuel argv' (files.write (cString script) text) =
          .returns ([], (files.write (cString script) text).write (cString archive') data) := by
  have hperm := hsort.permutes
  have htidy := hdump.tidy hstorable.1
  obtain ⟨hlegal, strs, d, r, hbody, hc, hsame⟩ :=
    Snapshot.heldBy_of_encodesTo hperm hlimit hsizes hstorable hencodes
  have hsortable : DecodesSortable tool (tool.start files) archive := by
    intro data' strs' d' r' hdata' hbody' _
    cases hdata.symm.trans hdata'
    cases hbody.symm.trans hbody'
    exact (hdump.of_same (hsame (tool.heap ++ [poolTable strs]))).sortable hsorts
  obtain ⟨m, hm⟩ := @decompressFile_returns tool (tool.start files) archive hsort hT hroom hsortable
    script
  obtain ⟨m', hm'⟩ := hencodes
  refine ⟨max (max m m') 100, fun fuel hfuel => ?_⟩
  have hhundred := layout_fuel hperm hdeep ((le_max_right _ _).trans hfuel)
  replace hfuel := (le_max_left _ _).trans hfuel
  have hlayout := hm' fuel ((le_max_right m m').trans hfuel)
  split_ifs at hlayout with hcomplete
  cases hlayout
  rcases hm fuel ((le_max_left m m').trans hfuel) with
    ⟨_, _, _, _, _, data, hdata', hrefused⟩ | ⟨text, w', hrun, hconsole, hfiles, _, htext⟩
  · -- the document is not refused
    cases hdata.symm.trans hdata'
    exact absurd hlegal hrefused
  refine ⟨text, ?_, ?_⟩
  · rw [Tool.run_decompressFile tool fuel files hmain, hrun, closed, hconsole, hfiles, Tool.stored,
      if_pos hscript]
    rfl
  -- the decoded value, and the value of the script
  unfold Decompressed at htext
  have hdata' : (tool.start files).files (cString archive) = some _ := hdata
  simp only [hdata'] at htext
  rcases htext with ⟨strs', d', r', hbody', _, hdumps⟩ | ⟨hnc, _⟩
  swap
  · rw [hbody] at hnc
    exact absurd hc hnc
  cases hbody.symm.trans hbody'
  have hs := hsame (tool.heap ++ [poolTable strs])
  have hdeep' := hdeep.of_same hs
  obtain ⟨hloads, hruns⟩ := runs_dump hperm hsorts heval (hdump.of_same hs) hdeep'
    (by rw [← nodes_of_same hs]; exact hnodes) hdumps
  obtain ⟨u, g, slots, hle, hvalue, _, hcopy⟩ := hruns script
    (tool.start (files.write (cString script) text))
  have htidy' := htidy.of_same hs
  have heq : layout tool.host.env g fuel u = layout tool.host.env snap.heap fuel snap.value := by
    rw [← layout_eq_of_same hsorts fuel _ _ htidy' hcopy, ← layout_eq_of_same hsorts fuel _ _ htidy hs]
  obtain ⟨w'', hcompress, hconsole', hfiles'⟩ := compressFile_returns hperm
    (w := tool.start (files.write (cString script) text)) (if_pos rfl) hloads hvalue rfl
    (htidy'.of_same hcopy).acyclic heq hcomplete (hhundred ▸ hfits slots hle) harchive
  rw [Tool.run_compressFile tool fuel _ hmain', hcompress, closed, hconsole', hfiles']
  rfl

theorem evaluates_plainTool : plainTool.Evaluates := by
  intro text tokens e hlex hparse _
  have hbind : (Token.lex text).bind parseChunk = some e := by
    rw [hlex, Option.bind_some, hparse]
  refine ⟨?_, fun name w => ?_⟩
  · show ((Token.lex text).bind parseChunk).isSome = true
    rw [hbind]
    rfl
  · refine ⟨w.thread.slots, le_rfl, ?_⟩
    simp only [plainTool, hbind]

theorem dumpable_flagTable : Dumpable [flagTable] (.table 0) := by
  refine .table (t := flagTable) rfl ?_ ?_ ?_
  all_goals
    intro e he
    obtain rfl := List.mem_singleton.mp he
  · exact Or.inr rfl
  · exact .string (List.forall_mem_singleton.mpr (by decide))
  · exact .boolean true

theorem nested_flagTable : Nested [flagTable] 100 (.table 0) := by
  have hnested : Nested [flagTable] 2 (.table 0) := by
    refine ⟨flagTable, rfl, fun e he => ?_⟩
    obtain rfl := List.mem_singleton.mp he
    exact ⟨trivial, trivial⟩
  exact hnested.mono (by decide)

/-- The document of `flagTable` in a file. -/
def flagFiles : Files :=
  Files.write (fun _ => none) (bytesOf "a.dat")
    [98, 116, 1, 0, 1, 0, 0, 0, 1, 0, 97, 21, 1, 13, 1, 2]

theorem flagFiles_input : flagFiles (cString (bytesOf "a.dat")) =
    some [98, 116, 1, 0, 1, 0, 0, 0, 1, 0, 97, 21, 1, 13, 1, 2] := by
  unfold flagFiles Files.write
  exact if_pos (by decide)

/-- The writer puts eight values on the stack, and a sort gives it more room than that. -/
theorem bufferFits_flagTable {slots : Nat} (hle : freshSlots ≤ slots) :
    (layout .plain [flagTable] 100 (.table 0)).BufferFits .plain 1 slots := by
  have hd : layout .plain [flagTable] 3 (.table 0) = .table 1 [.string [97], .boolean true] := rfl
  have hfresh : 44 ≤ slots := hle
  rw [layout_of_complete insertionSort_permutes complete_flagTable (by decide), hd]
  refine ⟨by omega, ?_⟩
  simp [Doc.buffer, Doc.bufferItems, show 8 ≤ slots by omega, show 7 ≤ slots by omega]

theorem encodesTo_flagTable : EncodesTo .plain [flagTable] (.table 0)
    (some [98, 116, 1, 0, 1, 0, 0, 0, 1, 0, 97, 21, 1, 13, 1, 2]) := by
  have hfile : (layout .plain [flagTable] 3 (.table 0)).file =
    [98, 116, 1, 0, 1, 0, 0, 0, 1, 0, 97, 21, 1, 13, 1, 2] := by decide +kernel
  refine ⟨3, fun fuel hle => ?_⟩
  rw [layout_of_complete insertionSort_permutes complete_flagTable hle, if_pos complete_flagTable,
    hfile]

theorem Tool.run_recompress_flagTable :
    ∃ m, ∀ fuel, m ≤ fuel → ∃ text,
      plainTool.run fuel (["luabt", "-d", "-o", "a.lua", "a.dat"].map bytesOf) flagFiles =
          .returns ([], flagFiles.write (cString (bytesOf "a.lua")) text) ∧
        plainTool.run fuel (["luabt", "-o", "b.dat", "a.lua"].map bytesOf)
            (flagFiles.write (cString (bytesOf "a.lua")) text) =
          .returns ([], (flagFiles.write (cString (bytesOf "a.lua")) text).write
            (cString (bytesOf "b.dat")) [98, 116, 1, 0, 1, 0, 0, 0, 1, 0, 97, 21, 1, 13, 1, 2]) := by
  have hsizes : Accepts plainTool.host.sizes 2 := fun _ _ => ⟨rfl, rfl⟩
  have hnodes : nodes [flagTable] 100 (.table 0) ≤ 2 ^ 17 := by
    rw [nodes_table (t := flagTable) rfl]
    decide
  have hroom : HasRoom plainTool flagFiles (bytesOf "a.dat") plainTool.thread.slots :=
    ⟨by decide, fun data hdata => by cases flagFiles_input.symm.trans hdata; decide +kernel⟩
  exact Tool.run_recompress insertionSort_rearranges insertionSort_sorts
    (libraryTable_std _) evaluates_plainTool (by decide) hsizes storable_flagTable
    dumpable_flagTable nested_flagTable hnodes flagFiles_input encodesTo_flagTable (by decide)
    (by decide) hroom (fun _ hle => bufferFits_flagTable hle) rfl rfl

end Luabt

end LuaBinaryTable
