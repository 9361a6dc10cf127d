import LuaBinaryTable.BinaryTable.Equiv.Parts

/-!
# What a call of the library comes to

`invoke_contract`: where it walks through no cycle every run of a function ends.  It raises an error
where the arguments are not what the function checks for, or where the document that it decodes asks
Lua for something that is refused, and otherwise hands on one of few replies.  It never changes a
table of the program, and of the files at most the one that it has written.
-/

namespace LuaBinaryTable

open LuaState Reader

section

variable (host : Host) (w : World) (args : List LuaValue)

/-- The message of an argument that has to be a string. -/
def textError (n : Nat) : Option Bytes :=
  if (slot args.reverse n).text? = none then
    some (host.site.position ++
      argMessage host.site n ((w.withStack args.reverse).L.typeMessage n .string))
  else none

/-- The message of an argument that has to be a number where it is given. -/
def indentError (n : Nat) : Option Bytes :=
  if host.maxIndent? args.reverse n = none then
    some (host.site.position ++
      argMessage host.site n ((w.withStack args.reverse).L.typeMessage n .number))
  else none

/-- The message of the error that a function raises for its arguments. -/
def LibFunction.argError : LibFunction → Option Bytes
  | parse | parseFromFile | writeToFile => textError host w args 1
  | write =>
    if args.length = 1 then none
    else some (host.site.position ++ (bytesOf "1 argument expected, but " ++
      bytesOf (toString args.length) ++ bytesOf " was given"))
  | dump =>
    if args.length = 0 then
      some (host.site.position ++ bytesOf "expected 1 argument, but 0 was givent.")
    else indentError host w args 2
  | dumpToFile => (textError host w args 2).or (indentError host w args 3)

/-- The argument that a function walks through. -/
def LibFunction.walked : LibFunction → Option LuaValue
  | write | dump | dumpToFile => args[0]?
  | writeToFile => args[1]?
  | _ => none

/-- The bytes that a function decodes. -/
def LibFunction.input : LibFunction → Option Bytes
  | parse => argText args 0
  | parseFromFile => (argText args 0).bind fun name => w.files (cString name)
  | _ => none

/-- The reply of a function that stores `data` under its argument of number `i + 1`. -/
def StoreReply (i : Nat) (data : Bytes) (vs : List LuaValue) (files : Files) : Prop :=
  ∃ name, argText args i = some name ∧
    if host.writable (cString name) then
      vs = [.boolean true] ∧ files = w.files.write (cString name) data
    else
      vs = [.boolean false, .string (bytesOf "Failed open input file.")] ∧ files = w.files

/-- What the encoder makes of the argument of number `i + 1`; of none it makes an empty table. -/
def EncodesArg (i : Nat) (data : Option Bytes) : Prop :=
  match args[i]? with
  | some v => EncodesTo host.env w.heap v data
  | none => data = some emptyFile

/-- What the printer makes of the first argument, with an indentation at the slot `n`. -/
def DumpsArg (n : Nat) (text : Bytes) : Prop :=
  ∃ v maxIndent, args[0]? = some v ∧ host.maxIndent? args.reverse n = some maxIndent ∧
    DumpsTo host.env w.heap v maxIndent text

/-- The reply of a function that decodes `data`. -/
def ParseReply (data : Bytes) (vs failure : List LuaValue) : Prop :=
  (readDocument data).Legal host.sizes ∧
    (((readDocument data).Complete ∧ ∃ v, vs = [v]) ∨
      (¬ (readDocument data).Complete ∧ vs = failure))

/-- The replies of a function, and the files that it leaves. -/
def LibFunction.Replies : LibFunction → List LuaValue → Files → Prop
  | parse, vs, files => files = w.files ∧ ∃ data, argText args 0 = some data ∧
      ParseReply host data vs [.nil, .string (message (readDocument data))]
  | write, vs, files => files = w.files ∧ ∃ data, EncodesArg host w args 0 data ∧
      vs = data.elim [] fun e => [.string e]
  | parseFromFile, vs, files => files = w.files ∧ ∃ name, argText args 0 = some name ∧
      match w.files (cString name) with
      | none => vs = [.nil, .string (bytesOf "Failed open input file.")]
      | some data => ParseReply host data vs [.string (message (readDocument data))]
  | writeToFile, vs, files => ∃ data, EncodesArg host w args 1 data ∧
      match data with
      | some e => StoreReply host w args 0 e vs files
      | none => files = w.files ∧
          vs = [.boolean false, .string (bytesOf "Failed to serialize data.")]
  | dump, vs, files => files = w.files ∧ ∃ text, DumpsArg host w args 2 text ∧ vs = [.string text]
  | dumpToFile, vs, files => ∃ text, DumpsArg host w args 3 text ∧
      StoreReply host w args 1 text vs files

/-- How a call of a function ends. -/
def LibFunction.Contract (f : LibFunction) : Run FileState (List LuaValue × World) → Prop
  | .returns (vs, w') =>
    f.argError host w args = none ∧ w.Kept w'.heap w'.thread ∧ f.Replies host w args vs w'.files
  | .raises s =>
    w.Kept s.L.heap s.L.thread ∧ s.files = w.files ∧
      ((∃ m S, f.argError host w args = some m ∧ s.L.stack = .string m :: S) ∨
        (f.argError host w args = none ∧ ∃ data, f.input w args = some data ∧
          ¬ (readDocument data).Legal host.sizes))
  | .diverges => False

end

variable {host : Host} {w : World} {args : List LuaValue}

theorem argText_eq (i : Nat) : argText args i = (slot args.reverse (i + 1)).text? := by
  rw [argText, slot_reverse]

/-- The slot of an argument that is given. -/
theorem acyclic_slot {n : Nat} (hargs : ∀ v, args[n]? = some v → Acyclic w.heap v)
    (hlt : n < args.length) : Acyclic w.heap (slot args.reverse (n + 1)) := by
  rw [slot_reverse, List.getElem?_eq_getElem hlt, Option.getD_some]
  exact hargs _ (List.getElem?_eq_getElem hlt)

/-- The error of an argument that is no string. -/
theorem contract_textError {f : LibFunction} {n : Nat} (hpos : 0 < n)
    (ht : (slot args.reverse n).text? = none)
    (hf : f.argError host w args = textError host w args n)
    {k : Bytes × FileState → Run FileState (List LuaValue × World)} :
    f.Contract host w args ((w.enter args).callLua (·.checklstring host.site n) >>= k) := by
  have hcheck := callLua_checklstring_none host w hpos ht
  have henter : w.enter args = w.withStack args.reverse := rfl
  rw [henter, hcheck, Run.raises_bind]
  refine ⟨World.Kept.refl w, rfl, Or.inl ⟨_, _, ?_, rfl⟩⟩
  rw [hf, textError, if_pos ht]

/-- The end of a call: the results are handed on. -/
def deliver (a : Nat × FileState) : Run FileState (List LuaValue × World) :=
  .returns (results a.1 a.2.L, a.2.world)

theorem results_one {L : LuaState} {v : LuaValue} {S : List LuaValue} (h : L.stack = v :: S) :
    results 1 L = [v] := by
  rw [results, h]
  rfl

theorem results_two {L : LuaState} {u v : LuaValue} {S : List LuaValue} (h : L.stack = v :: u :: S) :
    results 2 L = [u, v] := by
  rw [results, h]
  rfl

/-- Only an argument that is given has a text. -/
theorem slot_setSlot_of_text {S : List LuaValue} {n : Nat} (hpos : 0 < n) {text : Bytes}
    (ht : (slot S n).text? = some text) :
    n ≤ S.length ∧ slot (setSlot S n (.string text)) n = .string text := by
  have hle : n ≤ S.length := by
    by_contra hlt
    rw [slot_of_lt (not_le.mp hlt)] at ht
    cases ht
  exact ⟨hle, slot_setSlot _ hpos hle⟩

/-! ### The functions that decode -/

/-- `parse` takes no fuel: it ends on whatever it is given. -/
theorem contract_parse (fuel : Nat) :
    LibFunction.parse.Contract host w args (invoke host fuel .parse args w) := by
  rw [show invoke host fuel .parse args w = (luaBinaryTableParseAny host (w.enter args) >>= deliver)
    from rfl, luaBinaryTableParseAny, Run.bind_assoc]
  cases ht : (slot args.reverse 1).text? with
  | none => exact contract_textError Nat.one_pos ht rfl
  | some data =>
    obtain ⟨_, hslot⟩ := slot_setSlot_of_text Nat.one_pos ht
    have hcheck := callLua_checklstring_text host w Nat.one_pos ht
    rw [show w.enter args = w.withStack args.reverse from rfl, hcheck, Run.returns_bind]
    have hargs : LibFunction.parse.argError host w args = none :=
      if_neg (by rw [ht]; simp)
    have htext : argText args 0 = some data := (argText_eq 0).trans ht
    -- with a text on its slot the call is that of the decoder
    have hparses := parses_parse host w hslot
    show LibFunction.parse.Contract host w args ((w.withStack _).callParse _ >>= deliver)
    match (w.withStack (setSlot args.reverse 1 (.string data))).callParse
        (luaBinaryTableParse host.sizes), hparses with
    | .returns (m, s), ⟨hkept, _, hfiles, hlegal, hresult⟩ =>
      refine ⟨hargs, hkept, hfiles, data, htext, hlegal, ?_⟩
      rcases hresult with ⟨strs, d, r, hbody, hc, rfl, hst, _⟩ | ⟨hc, rfl, hst⟩
      · exact Or.inl ⟨by rw [hbody]; exact hc, _, results_one hst⟩
      · exact Or.inr ⟨hc, results_two hst⟩
    | .raises s, ⟨hkept, _, hfiles, hlegal⟩ =>
      exact ⟨hkept, hfiles, Or.inr ⟨hargs, data, htext, hlegal⟩⟩

/-- `parseFromFile` on an argument that has a text. -/
theorem run_parseFromFile {name : Bytes} (ht : (slot args.reverse 1).text? = some name)
    (fuel : Nat) : LibFunction.parseFromFile.run host fuel (w.enter args) =
      (w.withStack (setSlot args.reverse 1 (.string name))).callParse
        (luaBinaryTableParseFromFile host.sizes w.files.byName) := by
  have hrun : LibFunction.parseFromFile.run host fuel (w.enter args) =
    luaBinaryTableParseFromFileAny host (w.withStack args.reverse) := rfl
  rw [hrun, luaBinaryTableParseFromFileAny, callLua_checklstring_text host w Nat.one_pos ht]
  rfl

theorem invoke_parseFromFile {name : Bytes} (ht : (slot args.reverse 1).text? = some name)
    (fuel : Nat) : invoke host fuel .parseFromFile args w =
      ((w.withStack (setSlot args.reverse 1 (.string name))).callParse
        (luaBinaryTableParseFromFile host.sizes w.files.byName) >>= deliver) := by
  rw [← run_parseFromFile ht fuel]
  rfl

/-- `parseFromFile` ends on whatever it is given, as `parse` does. -/
theorem contract_parseFromFile (fuel : Nat) :
    LibFunction.parseFromFile.Contract host w args (invoke host fuel .parseFromFile args w) := by
  cases ht : (slot args.reverse 1).text? with
  | none =>
    have hcall : invoke host fuel .parseFromFile args w =
      (luaBinaryTableParseFromFileAny host (w.enter args) >>= deliver) := rfl
    rw [hcall, luaBinaryTableParseFromFileAny, Run.bind_assoc]
    exact contract_textError Nat.one_pos ht rfl
  | some name =>
    obtain ⟨_, hslot⟩ := slot_setSlot_of_text Nat.one_pos ht
    have hargs : LibFunction.parseFromFile.argError host w args = none :=
      if_neg (by rw [ht]; simp)
    have htext : argText args 0 = some name := (argText_eq 0).trans ht
    rw [invoke_parseFromFile ht]
    -- a file that cannot be opened is a reply of `nil` and a message, no error
    cases hfile : w.files (cString name) with
    | none =>
      rw [parseFromFile_missing hslot hfile]
      refine ⟨hargs, World.Kept.refl w, rfl, name, htext, ?_⟩
      rw [hfile]
      exact results_two rfl
    | some data =>
      have hinput : LibFunction.parseFromFile.input w args = some data := by
        rw [LibFunction.input, htext, Option.bind_some, hfile]
      have hparses := parses_parseFromFile host hslot hfile
      match (w.withStack (setSlot args.reverse 1 (.string name))).callParse
          (luaBinaryTableParseFromFile host.sizes w.files.byName), hparses with
      | .returns (m, s), ⟨hkept, _, hfiles, hlegal, hresult⟩ =>
        refine ⟨hargs, hkept, hfiles, name, htext, ?_⟩
        rw [hfile]
        refine ⟨hlegal, ?_⟩
        rcases hresult with ⟨strs, d, r, hbody, hc, rfl, hst, _⟩ | ⟨hc, rfl, hst⟩
        · exact Or.inl ⟨by rw [hbody]; exact hc, _, results_one hst⟩
        · exact Or.inr ⟨hc, results_one hst⟩
      | .raises s, ⟨hkept, _, hfiles, hlegal⟩ =>
        exact ⟨hkept, hfiles, Or.inr ⟨hargs, data, hinput, hlegal⟩⟩

/-! ### The functions that encode -/

/-- The encoder on an argument that is given. -/
theorem encodesArg_of_slot {n : Nat} (hlt : n < args.length) {data : Option Bytes}
    (hd : EncodesTo host.env w.heap (slot args.reverse (n + 1)) data) :
    EncodesArg host w args n data := by
  rw [slot_reverse, List.getElem?_eq_getElem hlt] at hd
  rw [EncodesArg, List.getElem?_eq_getElem hlt]
  exact hd

theorem contract_write (hperm : host.env.sort.Permutes)
    (hargs : ∀ v, args[0]? = some v → Acyclic w.heap v) :
    ∃ m, ∀ fuel, m ≤ fuel →
      LibFunction.write.Contract host w args (invoke host fuel .write args w) := by
  have hcall : ∀ fuel, invoke host fuel .write args w =
      (luaBinaryTableWrite host fuel (w.withStack args.reverse) >>= deliver) := fun _ => rfl
  have htop : (w.withStack args.reverse).L.gettop = args.length := List.length_reverse
  by_cases hlen : args.length = 1
  · have herror : LibFunction.write.argError host w args = none := if_pos hlen
    obtain ⟨m, data, hdata, hrun⟩ := exists_callLua_write (S := args.reverse) hperm Nat.one_pos
      (by rw [List.length_reverse, hlen]) (acyclic_slot hargs (by omega))
    refine ⟨m, fun fuel hfuel => ?_⟩
    obtain ⟨h', T, p, hkept, hw⟩ := hrun fuel hfuel
    rw [Nat.cast_one] at hw
    rw [hcall, luaBinaryTableWrite, htop, if_neg (not_not.mpr hlen), hw, Run.returns_bind]
    have hencodes : EncodesArg host w args 0 data := encodesArg_of_slot (by omega) hdata
    cases data with
    | none => exact ⟨herror, hkept, rfl, none, hencodes, rfl⟩
    | some e => exact ⟨herror, hkept, rfl, some e, hencodes, results_one rfl⟩
  · refine ⟨0, fun fuel _ => ?_⟩
    rw [hcall, luaBinaryTableWrite, htop, if_pos hlen]
    exact ⟨World.Kept.refl w, rfl, Or.inl ⟨_, _, if_neg hlen, rfl⟩⟩

/-- The end of a function that stores a file. -/
theorem contract_store {f : LibFunction} {i : Nat} {name data : Bytes}
    (herror : f.argError host w args = none) (htext : argText args i = some name)
    (hreply : ∀ vs files, StoreReply host w args i data vs files → f.Replies host w args vs files)
    {s : FileState} (hkept : w.Kept s.L.heap s.L.thread) (hfiles : s.files = w.files) :
    f.Contract host w args
      ((if host.writable (cString name) then
          pure (1, { L := s.L.pushboolean true, files := s.files.write (cString name) data })
        else pure (failWithMessage s (.boolean false) (bytesOf "Failed open input file."))) >>=
      deliver) := by
  by_cases hw : host.writable (cString name) = true
  · rw [if_pos hw]
    refine ⟨herror, hkept, hreply _ _ ⟨name, htext, ?_⟩⟩
    rw [if_pos hw, ← hfiles]
    exact ⟨results_one rfl, rfl⟩
  · rw [if_neg hw]
    refine ⟨herror, hkept, hreply _ _ ⟨name, htext, ?_⟩⟩
    rw [if_neg hw]
    exact ⟨results_two rfl, hfiles⟩

theorem contract_writeToFile (hperm : host.env.sort.Permutes)
    (hargs : ∀ v, args[1]? = some v → Acyclic w.heap v) :
    ∃ m, ∀ fuel, m ≤ fuel →
      LibFunction.writeToFile.Contract host w args (invoke host fuel .writeToFile args w) := by
  have hcall : ∀ fuel, invoke host fuel .writeToFile args w =
      (luaBinaryTableWriteToFile host fuel (w.withStack args.reverse) >>= deliver) := fun _ => rfl
  cases ht : (slot args.reverse 1).text? with
  | none =>
    refine ⟨0, fun fuel _ => ?_⟩
    rw [hcall, luaBinaryTableWriteToFile, Run.bind_assoc]
    exact contract_textError Nat.one_pos ht rfl
  | some name =>
    obtain ⟨hone, hslot⟩ := slot_setSlot_of_text Nat.one_pos ht
    have hcheck := callLua_checklstring_text host w Nat.one_pos ht
    have herror : LibFunction.writeToFile.argError host w args = none :=
      if_neg (by rw [ht]; simp)
    have htext : argText args 0 = some name := (argText_eq 0).trans ht
    have hlen : (setSlot args.reverse 1 (.string name)).length = args.length := by
      rw [length_setSlot, List.length_reverse]
    rw [List.length_reverse] at hone
    by_cases htwo : 2 ≤ args.length
    · have hvalue : slot (setSlot args.reverse 1 (.string name)) 2 = slot args.reverse 2 :=
        slot_setSlot_of_ne _ (by decide)
      obtain ⟨m, data, hdata, hrun⟩ := exists_callLua_write
        (S := setSlot args.reverse 1 (.string name)) hperm Nat.two_pos (by rw [hlen]; exact htwo)
        (by rw [hvalue]; exact acyclic_slot hargs htwo)
      rw [hvalue] at hdata
      have hencodes : EncodesArg host w args 1 data := encodesArg_of_slot htwo hdata
      refine ⟨m, fun fuel hfuel => ?_⟩
      obtain ⟨h', T, p, hkept, hw⟩ := hrun fuel hfuel
      rw [Nat.cast_two] at hw
      rw [hcall, luaBinaryTableWriteToFile, hcheck, Run.returns_bind]
      simp only [hw, Run.returns_bind]
      cases data with
      | none => exact ⟨herror, hkept, none, hencodes, rfl, results_two rfl⟩
      | some e => exact contract_store herror htext (fun _ _ h => ⟨some e, hencodes, h⟩) hkept rfl
    · -- without a second argument the table of the pool is written
      have hencodes : EncodesArg host w args 1 (some emptyFile) := by
        rw [EncodesArg, List.getElem?_eq_none (by omega)]
      refine ⟨1, fun fuel hfuel => ?_⟩
      obtain ⟨fuel, rfl⟩ := Nat.exists_eq_succ_of_ne_zero (show fuel ≠ 0 by omega)
      obtain ⟨h', p, hg, hw⟩ := callLua_write_missing
        (S := setSlot args.reverse 1 (.string name)) host w (by omega) fuel
      rw [Nat.cast_two] at hw
      rw [hcall, luaBinaryTableWriteToFile, hcheck, Run.returns_bind]
      simp only [hw, Run.returns_bind]
      exact contract_store herror htext (fun _ _ h => ⟨some emptyFile, hencodes, h⟩) ⟨hg, rfl⟩ rfl

/-! ### The functions that print -/

/-- The printer on the first argument. -/
theorem dumpsArg_of_slot {n : Nat} (hlt : 0 < args.length) {maxIndent : Int} {text : Bytes}
    (hi : host.maxIndent? args.reverse n = some maxIndent)
    (hd : DumpsTo host.env w.heap (slot args.reverse 1) maxIndent text) :
    DumpsArg host w args n text := by
  refine ⟨args[0], maxIndent, List.getElem?_eq_getElem hlt, hi, ?_⟩
  rwa [slot_reverse args 0, List.getElem?_eq_getElem hlt, Option.getD_some] at hd

/-- `dump` ends where its argument leads through no cycle. -/
theorem contract_dump (hsort : host.env.sort.Rearranges) (hT : LibraryTable w.heap w.thread.tableLib)
    (hargs : ∀ v, args[0]? = some v → Acyclic w.heap v) :
    ∃ m, ∀ fuel, m ≤ fuel →
      LibFunction.dump.Contract host w args (invoke host fuel .dump args w) := by
  have hcall : ∀ fuel, invoke host fuel .dump args w =
      (luaBinaryTableDump host fuel (w.withStack args.reverse) >>= deliver) := fun _ => rfl
  have htop : (w.withStack args.reverse).L.gettop = args.length := List.length_reverse
  -- without an argument there is nothing to print, which is asked before the indentation
  by_cases hlen : args.length = 0
  · refine ⟨0, fun fuel _ => ?_⟩
    rw [hcall, luaBinaryTableDump, htop, if_pos (by omega)]
    exact ⟨World.Kept.refl w, rfl, Or.inl ⟨_, _, if_pos hlen, rfl⟩⟩
  have hmsg : LibFunction.dump.argError host w args = indentError host w args 2 := if_neg hlen
  cases hi : host.maxIndent? args.reverse 2 with
  | none =>
    refine ⟨0, fun fuel _ => ?_⟩
    rw [hcall, luaBinaryTableDump, htop, if_neg (by omega), maxIndentArg_none Nat.two_pos hi]
    refine ⟨World.Kept.refl w, rfl, Or.inl ⟨_, _, ?_, rfl⟩⟩
    rw [hmsg, indentError, if_pos hi]
  | some maxIndent =>
    have herror : LibFunction.dump.argError host w args = none := by
      rw [hmsg, indentError, if_neg (by rw [hi]; simp)]
    obtain ⟨m, hrun⟩ := exists_callLua_dump (S := args.reverse) hsort hT Nat.one_pos
      (by rw [List.length_reverse]; omega) (acyclic_slot hargs (by omega)) maxIndent
    refine ⟨m, fun fuel hfuel => ?_⟩
    obtain ⟨text, L, hkept, hdumps, _, hd⟩ := hrun fuel hfuel
    rw [Nat.cast_one] at hd
    rw [hcall, luaBinaryTableDump, htop, if_neg (by omega), maxIndentArg_some Nat.two_pos hi,
      Run.returns_bind]
    simp only [hd, Run.returns_bind]
    exact ⟨herror, hkept, rfl, text, dumpsArg_of_slot (by omega) hi hdumps, results_one rfl⟩

/-- `dumpToFile` writes the text that `dump` returns, or no file. -/
theorem contract_dumpToFile (hsort : host.env.sort.Rearranges)
    (hT : LibraryTable w.heap w.thread.tableLib)
    (hargs : ∀ v, args[0]? = some v → Acyclic w.heap v) :
    ∃ m, ∀ fuel, m ≤ fuel →
      LibFunction.dumpToFile.Contract host w args (invoke host fuel .dumpToFile args w) := by
  have hcall : ∀ fuel, invoke host fuel .dumpToFile args w =
      (luaBinaryTableDumpToFile host fuel (w.withStack args.reverse) >>= deliver) := fun _ => rfl
  -- the file name is checked first and turned into a string on its slot, where it stands for the
  -- rest of the run
  cases ht : (slot args.reverse 2).text? with
  | none =>
    refine ⟨0, fun fuel _ => ?_⟩
    rw [hcall, luaBinaryTableDumpToFile, Run.bind_assoc]
    refine contract_textError Nat.two_pos ht ?_
    rw [LibFunction.argError, textError, if_pos ht]
    rfl
  | some name =>
    obtain ⟨htwo, _⟩ := slot_setSlot_of_text Nat.two_pos ht
    have hcheck := callLua_checklstring_text host w Nat.two_pos ht
    have hmsg : LibFunction.dumpToFile.argError host w args = indentError host w args 3 := by
      rw [LibFunction.argError, textError, if_neg (by rw [ht]; simp)]
      rfl
    have hindent := maxIndent?_setSlot host (S := args.reverse) (j := 3) (k := 2) (by decide)
      (.string name)
    cases hi : host.maxIndent? args.reverse 3 with
    | none =>
      refine ⟨0, fun fuel _ => ?_⟩
      rw [hi] at hindent
      rw [hcall, luaBinaryTableDumpToFile, hcheck, Run.returns_bind]
      simp only [maxIndentArg_none (by decide) hindent, Run.raises_bind]
      refine ⟨World.Kept.refl w, rfl, Or.inl ⟨_, _, ?_, rfl⟩⟩
      rw [hmsg, indentError, if_pos hi, typeMessage_setSlot (by decide) (by decide)]
    | some maxIndent =>
      have herror : LibFunction.dumpToFile.argError host w args = none := by
        rw [hmsg, indentError, if_neg (by rw [hi]; simp)]
      have htext : argText args 1 = some name := (argText_eq 1).trans ht
      -- the value to print is below the name and not touched by its conversion
      have hvalue : slot (setSlot args.reverse 2 (.string name)) 1 = slot args.reverse 1 :=
        slot_setSlot_of_ne _ (by decide)
      rw [List.length_reverse] at htwo
      obtain ⟨m, hrun⟩ := exists_callLua_dump (S := setSlot args.reverse 2 (.string name)) hsort hT
        Nat.one_pos (by rw [length_setSlot, List.length_reverse]; omega)
        (by rw [hvalue]; exact acyclic_slot hargs (by omega)) maxIndent
      rw [hvalue] at hrun
      rw [hi] at hindent
      refine ⟨m, fun fuel hfuel => ?_⟩
      obtain ⟨text, L, hkept, hdumps, _, hd⟩ := hrun fuel hfuel
      rw [Nat.cast_one] at hd
      rw [hcall, luaBinaryTableDumpToFile, hcheck, Run.returns_bind]
      simp only [maxIndentArg_some (by decide) hindent, hd, Run.returns_bind]
      exact contract_store herror htext
        (fun _ _ h => ⟨text, dumpsArg_of_slot (by omega) hi hdumps, h⟩) hkept rfl

/-! ### Every function -/

/-- Every run that walks through no cycle ends as its function promises: with an error where the
arguments are not the ones it checks for or where the document that it decodes asks for something
that Lua refuses, and otherwise with a reply.  The tables of the program are what they were, and so
are the files but one that the reply says has been written. -/
theorem invoke_contract (hsort : host.env.sort.Rearranges) (hT : LibraryTable w.heap w.thread.tableLib)
    (f : LibFunction) (hargs : ∀ v, f.walked args = some v → Acyclic w.heap v) :
    ∃ m, ∀ fuel, m ≤ fuel → f.Contract host w args (invoke host fuel f args w) := by
  cases f with
  | parse => exact ⟨0, fun fuel _ => contract_parse fuel⟩
  | write => exact contract_write hsort.permutes hargs
  | parseFromFile => exact ⟨0, fun fuel _ => contract_parseFromFile fuel⟩
  | writeToFile => exact contract_writeToFile hsort.permutes hargs
  | dump => exact contract_dump hsort hT hargs
  | dumpToFile => exact contract_dumpToFile hsort hT hargs

/-- A host that refuses nothing. -/
def plainHost : Host where
  env := .plain
  sizes := fun _ _ => true
  str2d := fun _ => none
  site := ⟨[], none, false⟩
  writable := fun _ => true

end LuaBinaryTable
