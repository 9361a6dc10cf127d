import LuaBinaryTable.BinaryTable.Equiv.Functions
import LuaBinaryTable.Luabt.Files
import LuaBinaryTable.Reader.Equiv.Forest

/-!
# What `luabt -d` leaves

`Tool.run_decompress`: the tool writes a Lua file for every input that Lua does not refuse, also for
one that is missing or that is no document.  It reports nothing then, and nothing either where the
file cannot be written.
-/

namespace LuaBinaryTable

open Reader

namespace Luabt

variable {tool : Tool} {w : World} {srcFile dstFile : Bytes}

/-- The files with a text stored, where the path can be written. -/
def Tool.stored (tool : Tool) (files : Files) (path text : Bytes) : Files :=
  if tool.host.writable (cString path) then files.write (cString path) text else files

/-! ### The two calls -/

/-- What a call leaves of the thread is what its caller had of it. -/
theorem thread_caller {below : Nat} (hle : below ≤ w.thread.slots) {w' : World}
    (h : w'.thread = (callee below w).thread) : (caller below w').thread = w.thread := by
  have hslots : w.thread.slots - below + below = w.thread.slots := Nat.sub_add_cancel hle
  simp only [caller, h, callee, hslots]

/-- What `parseFromFile` hands on first, and the world after it. -/
def Loaded (tool : Tool) (w : World) (srcFile : Bytes) (v : LuaValue) (w' : World) : Prop :=
  Grows w.heap w'.heap ∧ w'.thread = w.thread ∧ w'.files = w.files ∧
    match w.files (cString srcFile) with
    | none => v = .nil
    | some data =>
      (readDocument data).Legal tool.host.sizes ∧
        ((∃ strs d r, readDocument data = .body strs d r ∧ d.Complete ∧
            v = (d.materialise (w.heap ++ [poolTable strs])).1 ∧
            w'.heap = (d.materialise (w.heap ++ [poolTable strs])).2) ∨
          (¬ (readDocument data).Complete ∧ v = .string (message (readDocument data))))

/-- The file is a document that asks Lua for something that it refuses. -/
def Refused (tool : Tool) (files : Files) (srcFile : Bytes) : Prop :=
  ∃ data, files (cString srcFile) = some data ∧ ¬ (readDocument data).Legal tool.host.sizes

/-- The call of `parseFromFile`, which takes no fuel, within a buffer that has the slots for it. -/
theorem call_parseFromFile (tool : Tool) {w : World} (hroom : 3 ≤ w.thread.slots)
    (hslots : ∀ data, w.files (cString srcFile) = some data →
      1 + (readDocument data).slots tool.host.sizes ≤ w.thread.slots) :
    (∃ vs w', call tool.host 0 .parseFromFile [.string srcFile] w = .returns (vs, w') ∧
        Loaded tool w srcFile (vs.headD .nil) w') ∨
      ∃ s, call tool.host 0 .parseFromFile [.string srcFile] w = .raises s ∧
        s.L.thread = w.thread ∧ s.files = w.files ∧ Refused tool w.files srcFile := by
  have hname : (slot [LuaValue.string srcFile].reverse 1).text? = some srcFile := rfl
  obtain ⟨_, hslot⟩ := slot_setSlot_of_text Nat.one_pos hname
  have hrun : LibFunction.parseFromFile.run tool.host 0 (w.enter [.string srcFile]) = _ :=
    run_parseFromFile hname 0
  cases hfile : w.files (cString srcFile) with
  | none =>
    rw [parseFromFile_missing hslot hfile] at hrun
    -- `nil` and the message, above the name
    have hover : ¬ LuaState.Overrun ((w.withStack (setSlot [LuaValue.string srcFile].reverse 1
        (.string srcFile))).L.pushnil.pushlstring (bytesOf "Failed open input file.")) :=
      not_lt.mpr hroom
    rw [call_of_returns hrun, if_neg hover]
    refine Or.inl ⟨_, _, rfl, Grows.refl _, rfl, rfl, ?_⟩
    rw [hfile]
    rfl
  | some data =>
    have hfits := hslots data hfile
    have hparses := parses_parseFromFile tool.host hslot hfile
    generalize (w.withStack (setSlot [LuaValue.string srcFile].reverse 1 (.string srcFile))).callParse
      (luaBinaryTableParseFromFile tool.host.sizes w.files.byName) = x at hparses hrun
    cases x with
    | returns a =>
      -- the parser is below its peak exactly where the document fits
      obtain ⟨hkept, ⟨hthread, hover⟩, hfiles, hlegal, hresult⟩ := hparses
      rw [call_of_returns hrun, if_neg (hover.mpr hfits)]
      refine Or.inl ⟨_, _, rfl, hkept.1, hthread, hfiles, ?_⟩
      rw [hfile]
      refine ⟨hlegal, hresult.imp ?_ ?_⟩
      · rintro ⟨strs, d, r, hbody, hc, hone, hst, hheap⟩
        exact ⟨strs, d, r, hbody, hc, by rw [hone, results_one hst]; rfl, hheap⟩
      · rintro ⟨hc, hone, hst⟩
        exact ⟨hc, by rw [hone, results_one hst]; rfl⟩
    | raises s =>
      obtain ⟨_, ⟨hthread, hover⟩, hfiles, hlegal⟩ := hparses
      rw [call_of_raises hrun, if_neg (hover.mpr hfits)]
      exact Or.inr ⟨s, rfl, hthread, hfiles, data, hfile, hlegal⟩
    | diverges => exact hparses.elim

/-- The buffer of the stack has the slots for the two calls.  Three values lie below the first
one, with its argument, and the printer takes seven above two. -/
def HasRoom (tool : Tool) (files : Files) (srcFile : Bytes) (slots : Nat) : Prop :=
  9 ≤ slots ∧ ∀ data, files (cString srcFile) = some data →
    3 + (1 + (readDocument data).slots tool.host.sizes) ≤ slots

/-- The first call of the tool, with the buffer that is left above its own three values. -/
theorem pcall_parseFromFile (hroom : HasRoom tool w.files srcFile w.thread.slots) :
    (∃ vs w', (∀ fuel, tool.pcall fuel 3 (bytesOf "parseFromFile") [.string srcFile] w =
        .returns (vs, w')) ∧ Loaded tool w srcFile (vs.headD .nil) w') ∨
      ∃ e w', (∀ fuel, tool.pcall fuel 3 (bytesOf "parseFromFile") [.string srcFile] w =
        .raises (e, w')) ∧
        w'.thread = w.thread ∧ w'.files = w.files ∧ Refused tool w.files srcFile := by
  obtain ⟨hnine, hslots⟩ := hroom
  have hpcall : ∀ fuel, tool.pcall fuel 3 (bytesOf "parseFromFile") [.string srcFile] w =
      tool.caught 3 (call tool.host 0 .parseFromFile [.string srcFile] (callee 3 w)) := fun _ => rfl
  have hcallee : (callee 3 w).thread.slots = w.thread.slots - 3 := rfl
  have hcall := @call_parseFromFile srcFile tool (callee 3 w) (by omega) fun data hdata => by
    have hfits := hslots data hdata
    omega
  rcases hcall with
    ⟨vs, w', hcall, hg, hthread, hfiles, hv⟩ | ⟨s, hcall, hthread, hfiles, hrefused⟩
  · refine Or.inl ⟨vs, caller 3 w', fun fuel => ?_, hg, ?_, hfiles, hv⟩
    · rw [hpcall, hcall, Tool.caught]
    · exact thread_caller (by omega) hthread
  · refine Or.inr ⟨tool.errorText s, caller 3 s.world, fun fuel => ?_, ?_, hfiles, hrefused⟩
    · rw [hpcall, hcall, Tool.caught]
    · exact thread_caller (by omega) hthread

/-- What is loaded has no cycle. -/
theorem Loaded.acyclic {v : LuaValue} {w' : World} (h : Loaded tool w srcFile v w') :
    Acyclic w'.heap v := by
  obtain ⟨_, _, _, h⟩ := h
  cases hfile : w.files (cString srcFile) with
  | none =>
    rw [hfile] at h
    exact h ▸ .scalar (by simp [LuaValue.type])
  | some data =>
    rw [hfile] at h
    rcases h with ⟨_, ⟨strs, d, _, _, _, rfl, hheap⟩ | ⟨_, rfl⟩⟩
    · rw [hheap]
      exact acyclic_materialise d _
    · exact .scalar (by simp [LuaValue.type])

/-- The call of `dumpToFile` on a value without cycles whose keys can be sorted. -/
theorem call_dumpToFile (hsort : tool.host.env.sort.Rearranges) {w : World}
    (hT : LibraryTable w.heap w.thread.tableLib) (hroom : 7 ≤ w.thread.slots) {v : LuaValue}
    (ha : Acyclic w.heap v) (hs : Sortable tool.host.env w.heap v) (dstFile : Bytes) :
    ∃ m, ∀ fuel, m ≤ fuel → ∃ vs w' text,
      call tool.host fuel .dumpToFile [v, .string dstFile] w = .returns (vs, w') ∧
        PrintsAs tool.host.env w.heap v 99 text ∧ w'.thread.console = w.thread.console ∧
          w'.files = tool.stored w.files dstFile text := by
  obtain ⟨m, hm⟩ := exists_callLua_dump (S := [.string dstFile, v]) hsort hT Nat.one_pos
    one_le_two ha 99
  refine ⟨m, fun fuel hfuel => ?_⟩
  obtain ⟨text, L, _, hdumps, hquiet, hd⟩ := hm fuel hfuel
  obtain ⟨h', T, p, rfl, hq⟩ := hquiet hs
  have hslots := hq.slots
  -- a level of the printer grows the buffer before it is entered, so the room of the first is
  -- enough
  have hpeak : p ≤ T.slots := hq.fits (show 2 ≤ _ by omega) (show 2 + 5 ≤ _ by omega)
  have hcheck := callLua_checklstring_text tool.host w (S := [.string dstFile, v]) (n := 2)
    Nat.two_pos rfl
  have hindent : maxIndentArg tool.host
      (w.withStack (setSlot [.string dstFile, v] 2 (.string dstFile))) 3 = .returns (99, _) :=
    maxIndentArg_some (by decide) rfl
  have hrun : LibFunction.dumpToFile.run tool.host fuel (w.enter [v, .string dstFile]) =
      luaBinaryTableDumpToFile tool.host fuel (w.withStack [.string dstFile, v]) := rfl
  rw [luaBinaryTableDumpToFile, hcheck, Run.returns_bind] at hrun
  simp only [hindent, Run.returns_bind] at hrun
  have hsame : setSlot [.string dstFile, v] 2 (.string dstFile) = [LuaValue.string dstFile, v] := rfl
  rw [Nat.cast_one] at hd
  rw [hsame] at hrun
  simp only [hd, Run.returns_bind] at hrun
  unfold Tool.stored
  split_ifs at hrun ⊢ with hw
  -- `true` alone, or `false` and the message
  · have hover : ¬ LuaState.Overrun (LuaState.pushboolean true ⟨[.string dstFile, v], h', T, p⟩) :=
      not_lt.mpr (Nat.max_le.mpr ⟨hpeak, show 3 ≤ T.slots by omega⟩)
    rw [call_of_returns hrun, if_neg hover]
    exact ⟨_, _, text, rfl, hdumps hs, hq.console, rfl⟩
  · have hover : ¬ LuaState.Overrun ((LuaState.push (.boolean false)
        ⟨[.string dstFile, v], h', T, p⟩).pushlstring (bytesOf "Failed open input file.")) :=
      not_lt.mpr (Nat.max_le.mpr ⟨Nat.max_le.mpr ⟨hpeak, show 3 ≤ T.slots by omega⟩,
        show 4 ≤ T.slots by omega⟩)
    rw [call_of_returns hrun, if_neg hover]
    exact ⟨_, _, text, rfl, hdumps hs, hq.console, rfl⟩

/-! ### The whole run -/

/-- The text that the tool writes for what it has loaded. -/
def Decompressed (tool : Tool) (w : World) (srcFile text : Bytes) : Prop :=
  match w.files (cString srcFile) with
  | none => text = bytesOf "return nil"
  | some data =>
    (∃ strs d r, readDocument data = .body strs d r ∧ d.Complete ∧
        PrintsAs tool.host.env (d.materialise (w.heap ++ [poolTable strs])).2
          (d.materialise (w.heap ++ [poolTable strs])).1 99 text) ∨
      (¬ (readDocument data).Complete ∧
        text = bytesOf "return \"" ++ message (readDocument data) ++ bytesOf "\"")

/-- The keys in all tables of the document can be sorted, if the file is one. -/
def DecodesSortable (tool : Tool) (w : World) (srcFile : Bytes) : Prop :=
  ∀ data strs d r, w.files (cString srcFile) = some data → readDocument data = .body strs d r →
    d.Complete → Sortable tool.host.env (d.materialise (w.heap ++ [poolTable strs])).2
      (d.materialise (w.heap ++ [poolTable strs])).1

theorem Loaded.sortable {v : LuaValue} {w' : World} (h : Loaded tool w srcFile v w')
    (hs : DecodesSortable tool w srcFile) : Sortable tool.host.env w'.heap v := by
  obtain ⟨_, _, _, h⟩ := h
  cases hfile : w.files (cString srcFile) with
  | none =>
    rw [hfile] at h
    exact h ▸ sortable_of_not_table (by simp [LuaValue.type])
  | some data =>
    rw [hfile] at h
    rcases h with ⟨_, ⟨strs, d, r, hbody, hc, rfl, hheap⟩ | ⟨_, rfl⟩⟩
    · rw [hheap]
      exact hs data strs d r hfile hbody hc
    · exact sortable_of_not_table (by simp [LuaValue.type])

/-- The text of a value that is no table. -/
theorem text_of_printsAs {env : Env} {h : List LuaTable} {v : LuaValue} {maxIndent : Int}
    {text : Bytes} (hd : PrintsAs env h v maxIndent text) (hv : v.type ≠ .table) :
    text = bytesOf "return " ++ scalarText env v := by
  obtain ⟨n, hn, rfl⟩ := hd
  obtain ⟨n, rfl⟩ := Nat.exists_eq_succ_of_ne_zero hn.pos.ne'
  rw [Nat.succ_eq_add_one, dumpText_scalar hv]

/-- What the second call prints is what the tool has to write for the file. -/
theorem Loaded.decompressed {v : LuaValue} {w' : World} (h : Loaded tool w srcFile v w')
    {text : Bytes} (hd : PrintsAs tool.host.env w'.heap v 99 text) :
    Decompressed tool w srcFile text := by
  obtain ⟨_, _, _, h⟩ := h
  unfold Decompressed
  cases hfile : w.files (cString srcFile) with
  | none =>
    rw [hfile] at h
    rw [h] at hd
    exact text_of_printsAs hd (by simp [LuaValue.type])
  | some data =>
    rw [hfile] at h
    rcases h with ⟨_, ⟨strs, d, r, hbody, hc, hv, hheap⟩ | ⟨hc, hv⟩⟩
    · refine Or.inl ⟨strs, d, r, hbody, hc, ?_⟩
      rw [hv, hheap] at hd
      exact hd
    · refine Or.inr ⟨hc, ?_⟩
      rw [hv] at hd
      rw [text_of_printsAs hd (by simp [LuaValue.type]), scalarText]
      simp [bytesOf]

theorem Loaded.not_refused {v : LuaValue} {w' : World} (h : Loaded tool w srcFile v w') :
    ¬ Refused tool w.files srcFile := by
  rintro ⟨data, hdata, hlegal⟩
  obtain ⟨_, _, _, h⟩ := h
  rw [hdata] at h
  exact hlegal h.1

/-- How the work of `decompressFile` ends. -/
theorem decompressFile_returns (hsort : tool.host.env.sort.Rearranges)
    (hT : LibraryTable w.heap w.thread.tableLib)
    (hroom : HasRoom tool w.files srcFile w.thread.slots) (hs : DecodesSortable tool w srcFile)
    (dstFile : Bytes) :
    ∃ m, ∀ fuel, m ≤ fuel →
      (∃ e w', decompressFile tool fuel srcFile dstFile w =
          .returns (executeFailed (bytesOf "function 'parseFromFile'") srcFile e, w') ∧
        w'.thread.console = w.thread.console ∧ w'.files = w.files ∧
          Refused tool w.files srcFile) ∨
      ∃ text w', decompressFile tool fuel srcFile dstFile w = .returns ([], w') ∧
        w'.thread.console = w.thread.console ∧ w'.files = tool.stored w.files dstFile text ∧
          ¬ Refused tool w.files srcFile ∧ Decompressed tool w srcFile text := by
  rcases pcall_parseFromFile hroom with
    ⟨vs, w', hcall, hloaded⟩ | ⟨e, w', hcall, hthread, hfiles, hrefused⟩
  -- loaded: the second call finds the table library where the first one found it
  · obtain ⟨ref, t, hlib, ht, hborder⟩ := hT
    have hthread : w'.thread = w.thread := hloaded.2.1
    have hT' : LibraryTable (callee 2 w').heap (callee 2 w').thread.tableLib :=
      ⟨ref, t, (congrArg Thread.tableLib hthread).trans hlib, hloaded.1.table ht, hborder⟩
    have hseven : 7 ≤ (callee 2 w').thread.slots := by
      show 7 ≤ w'.thread.slots - 2
      have hnine := hroom.1
      rw [hthread]
      omega
    obtain ⟨m, hm⟩ := call_dumpToFile hsort hT' hseven hloaded.acyclic (hloaded.sortable hs) dstFile
    refine ⟨m, fun fuel hfuel => Or.inr ?_⟩
    obtain ⟨vs', w'', text, hdump, hprints, hconsole, hstored⟩ := hm fuel hfuel
    have hpcall : tool.pcall fuel 2 (bytesOf "dumpToFile") [vs.headD .nil, .string dstFile] w' =
        tool.caught 2 (call tool.host fuel .dumpToFile [vs.headD .nil, .string dstFile]
          (callee 2 w')) := rfl
    have hsame : w'.thread.console = w.thread.console := congrArg Thread.console hthread
    refine ⟨text, caller 2 w'', ?_, hconsole.trans hsame,
      hstored.trans (congrArg (tool.stored · dstFile text) hloaded.2.2.1), hloaded.not_refused,
      hloaded.decompressed hprints⟩
    rw [decompressFile, hcall]
    simp only [hpcall, hdump, Tool.caught]
  -- not loaded: the error of the first call is all that is printed
  · refine ⟨0, fun fuel _ => Or.inl ⟨e, w', ?_, by rw [hthread], hfiles, hrefused⟩⟩
    rw [decompressFile, hcall]

/-- A run that decompresses within the buffer of the stack ends, and either Lua refuses what the
document asks for, which is reported and leaves the files alone, or the output gets a text where
it can be written, and nothing is reported: the value of a document, whose keys can be sorted,
`nil` where there is no input, and the message of the decoder as a string where the input is no
document. -/
theorem Tool.run_decompress (hsort : tool.host.env.sort.Rearranges)
    (hT : LibraryTable tool.heap tool.thread.tableLib) {argv : List Bytes}
    (hmain : main argv = .decompressFile srcFile dstFile) (files : Files)
    (hroom : HasRoom tool files srcFile tool.thread.slots)
    (hs : DecodesSortable tool (tool.start files) srcFile) :
    ∃ m, ∀ fuel, m ≤ fuel →
      (∃ e, tool.run fuel argv files =
          .returns (executeFailed (bytesOf "function 'parseFromFile'") srcFile e, files) ∧
        Refused tool files srcFile) ∨
      ∃ text, tool.run fuel argv files = .returns ([], tool.stored files dstFile text) ∧
        ¬ Refused tool files srcFile ∧ Decompressed tool (tool.start files) srcFile text := by
  obtain ⟨m, hm⟩ := @decompressFile_returns tool (tool.start files) srcFile hsort hT hroom hs dstFile
  refine ⟨m, fun fuel hfuel => ?_⟩
  rw [Tool.run_decompressFile tool fuel files hmain]
  rcases hm fuel hfuel with
    ⟨e, w', hrun, hconsole, hfiles, hrefused⟩ | ⟨text, w', hrun, hconsole, hfiles, hrest⟩
  · refine Or.inl ⟨e, ?_, hrefused⟩
    rw [hrun, closed, hconsole, hfiles]
    rfl
  · refine Or.inr ⟨text, ?_, hrest⟩
    rw [hrun, closed, hconsole, hfiles]
    rfl

/-- A tool whose scripts are single expressions. -/
def plainTool : Tool where
  host := plainHost
  heap := [diamondTable, stdTable]
  thread := .fresh (.table 1)
  errorText := fun _ => bytesOf "error"
  loads := fun text => ((Token.lex text).bind parseChunk).isSome
  runs := fun text _ w =>
    match (Token.lex text).bind parseChunk with
    | some e => .returns ((e.eval w.heap).1, { w with heap := (e.eval w.heap).2 })
    | none => .raises ([], w)

/-- The document of `true` in a file. -/
def trueFiles : Files :=
  Files.write (fun _ => none) (bytesOf "a.dat") [98, 116, 1, 0, 0, 0, 0, 0, 2]

theorem trueFiles_input :
    trueFiles (cString (bytesOf "a.dat")) = some [98, 116, 1, 0, 0, 0, 0, 0, 2] := by
  unfold trueFiles Files.write
  exact if_pos (by decide)

theorem Tool.run_decompress_true :
    ∃ m, ∀ fuel, m ≤ fuel →
      plainTool.run fuel (["luabt", "-d", "-o", "a.lua", "a.dat"].map bytesOf) trueFiles =
        .returns ([], trueFiles.write (cString (bytesOf "a.lua")) (bytesOf "return true")) := by
  have hread : readDocument [98, 116, 1, 0, 0, 0, 0, 0, 2] =
      .body [] (.boolean true) ⟨[98, 116, 1, 0, 0, 0, 0, 0, 2], 9⟩ := rfl
  have hsort : DecodesSortable plainTool (plainTool.start trueFiles) (bytesOf "a.dat") := by
    intro data strs d r hdata hbody _
    cases trueFiles_input.symm.trans hdata
    cases hread.symm.trans hbody
    exact sortable_of_not_table (by simp [Doc.materialise, LuaValue.type])
  obtain ⟨m, hm⟩ := @Tool.run_decompress plainTool (bytesOf "a.dat") (bytesOf "a.lua")
    insertionSort_rearranges (libraryTable_std _)
    (["luabt", "-d", "-o", "a.lua", "a.dat"].map bytesOf) (by decide) trueFiles
    ⟨by decide, fun data hdata => by cases trueFiles_input.symm.trans hdata; decide⟩ hsort
  refine ⟨m, fun fuel hfuel => ?_⟩
  rcases hm fuel hfuel with ⟨_, _, data, hdata, hlegal⟩ | ⟨text, hrun, _, htext⟩
  · cases trueFiles_input.symm.trans hdata
    rw [hread] at hlegal
    exact absurd ⟨rfl, trivial⟩ hlegal
  · have hdata : (plainTool.start trueFiles).files (cString (bytesOf "a.dat")) =
        some [98, 116, 1, 0, 0, 0, 0, 0, 2] := trueFiles_input
    unfold Decompressed at htext
    simp only [hdata] at htext
    rcases htext with ⟨_, _, _, hbody, _, hprints⟩ | ⟨hnc, _⟩
    · cases hread.symm.trans hbody
      rw [hrun, text_of_printsAs hprints (by simp [Doc.materialise, LuaValue.type])]
      rfl
    · rw [hread] at hnc
      exact absurd rfl hnc

end Luabt

end LuaBinaryTable
