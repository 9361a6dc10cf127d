import LuaBinaryTable.BinaryTable.Functions
import LuaBinaryTable.Reader.Equiv.Clean
import LuaBinaryTable.Reader.Equiv.Frame
import LuaBinaryTable.Writer.Equiv.Clean
import LuaBinaryTable.Writer.Equiv.DumpTable
import LuaBinaryTable.Writer.Equiv.Fuel

/-!
# The parts of the functions

How the checks, the encoder, the printer and the decoder end in a function of the library: on the
state `withStack` of a world, and with fuel enough where that matters.
-/

namespace LuaBinaryTable

open LuaState Reader

/-- The state of a function that has changed nothing but its stack. -/
def World.withStack (w : World) (S : List LuaValue) : FileState :=
  ⟨.entry S w.heap w.thread, w.files⟩

/-- The tables of the program are what they were, and so is the global `table`. -/
def World.Kept (w : World) (heap : List LuaTable) (thread : Thread) : Prop :=
  Grows w.heap heap ∧ thread.tableLib = w.thread.tableLib

theorem World.Kept.refl (w : World) : w.Kept w.heap w.thread := ⟨Grows.refl w.heap, rfl⟩

variable {host : Host} {w : World} {S : List LuaValue}

/-! ### Arguments -/

/-- The slot of an argument that is given. -/
theorem validIndex_arg {n : Nat} (hpos : 0 < n) (hle : n ≤ S.length) : ValidIndex S n where
  ne_zero := by omega
  pos := by rwa [absIndex_natCast hpos]
  le := by rwa [absIndex_natCast hpos]

theorem valueAt_arg {n : Nat} (hpos : 0 < n) : valueAt S n = slot S n := by
  rw [valueAt, absIndex_natCast hpos]

/-- An argument that is not given is `nil`. -/
theorem slot_of_lt {n : Nat} (hlt : S.length < n) : slot S n = .nil := by
  induction S with
  | nil => rfl
  | cons v S ih =>
    rw [List.length_cons] at hlt
    rw [slot, if_neg (by omega), ih (by omega)]

section

variable (host w)

theorem callLua_checklstring_text {n : Nat} (hpos : 0 < n) {text : Bytes}
    (ht : (slot S n).text? = some text) :
    (w.withStack S).callLua (·.checklstring host.site n) =
      .returns (text, w.withStack (setSlot S n (.string text))) := by
  have hcheck := checklstring_of_text (L := .entry S w.heap w.thread) host.site hpos ht
  rw [FileState.callLua_returns hcheck]
  simp only [World.withStack, LuaState.entry, length_setSlot]

theorem callLua_checklstring_none {n : Nat} (hpos : 0 < n) (ht : (slot S n).text? = none) :
    (w.withStack S).callLua (·.checklstring host.site n) =
      .raises ⟨((w.withStack S).L.pushlstring ((w.withStack S).L.typeMessage n .string)).pushlstring
        (host.site.position ++
          argMessage host.site n ((w.withStack S).L.typeMessage n .string)), w.files⟩ :=
  FileState.callLua_raises
    (checklstring_of_none (L := .entry S w.heap w.thread) host.site hpos ht)

end

/-! ### The encoder -/

/-- The document of the value, `none` where it has no complete one. -/
def EncodesTo (env : Env) (h : List LuaTable) (v : LuaValue) (data : Option Bytes) : Prop :=
  ∃ m, ∀ fuel, m ≤ fuel →
    data = if (layout env h fuel v).Complete then some (layout env h fuel v).file else none

/-- The encoder ends on an acyclic argument, and keeps the stack and the tables. -/
theorem exists_callLua_write (hperm : host.env.sort.Permutes) {n : Nat} (hpos : 0 < n)
    (hle : n ≤ S.length) (ha : Acyclic w.heap (slot S n)) :
    ∃ m data, EncodesTo host.env w.heap (slot S n) data ∧ ∀ fuel, m ≤ fuel →
      ∃ h' T p, w.Kept h' T ∧
        (w.withStack S).callLua (writeBinaryTable host.env fuel · n) =
          .returns (data, ⟨⟨S, h', T, p⟩, w.files⟩) := by
  rw [← valueAt_arg hpos] at ha ⊢
  obtain ⟨m, d, _, hrun⟩ := writeBinaryTable_returns hperm (validIndex_arg hpos hle) ha w.thread
  refine ⟨m, if d.Complete then some d.file else none, ⟨m, fun fuel hfuel => ?_⟩,
    fun fuel hfuel => ?_⟩
  · rw [(hrun fuel hfuel).1]
  · obtain ⟨_, h', hg, hw⟩ := hrun fuel hfuel
    exact ⟨h', _, _, ⟨hg, d.tableLib_threadWritten _ _ _⟩, FileState.callLua_returns hw⟩

/-- The document of an empty table. -/
def emptyFile : Bytes := Doc.emptyTable.file

/-- Where the argument is not given, the slot is that of the pool, which is empty then. -/
theorem callLua_write_missing (host : Host) (w : World) (hlen : S.length = 1) (fuel : Nat) :
    ∃ h' p, Grows w.heap h' ∧
      (w.withStack S).callLua (writeBinaryTable host.env (fuel + 1) · (2 : Nat)) =
        .returns (some emptyFile, ⟨⟨S, h', w.thread, p⟩, w.files⟩) := by
  -- `create` pushes the table of the strings where the argument would be, and that one is written
  have hslot : slot (withStrings w.heap S) 2 = .table w.heap.length := by
    rw [withStrings, slot_of_le (by simp [hlen]), slot, if_pos (by omega)]
  have htable : (w.heap ++ [LuaTable.empty, LuaTable.empty])[w.heap.length]? = some .empty := by
    simp
  have hpeak : max S.length (S.length + 2) = S.length + 2 := Nat.max_eq_right (Nat.le_add_right _ _)
  have hbind : writeBinaryTable host.env (fuel + 1) (.entry S w.heap w.thread) (2 : Nat) =
      (writeValue host.env (fuel + 1) (2 : Nat)
        ⟨⟨withStrings w.heap S, w.heap ++ [.empty, .empty], w.thread, S.length + 2⟩,
          { handle := S.length + 1, index2string := S.length + 2, size := 0, cacheSize := 0 },
          .empty⟩ >>= finish S.length) := by
    simp only [writeBinaryTable, LuaState.entry, create_mk, hpeak]
    rfl
  have hvalue : writeValue host.env (fuel + 1) (2 : Nat)
        ⟨⟨withStrings w.heap S, w.heap ++ [.empty, .empty], w.thread, S.length + 2⟩,
          { handle := S.length + 1, index2string := S.length + 2, size := 0, cacheSize := 0 },
          .empty⟩ =
      .returns (true, ⟨⟨withStrings w.heap S, w.heap ++ [.empty, .empty], w.thread, S.length + 3⟩,
        { handle := S.length + 1, index2string := S.length + 2, size := 0, cacheSize := 0 },
        (Doc.emptyTable.emit .start).stream⟩) := by
    have hcount := countTableLength_eq (T := w.thread) (i := 2) (by decide)
      (show 2 ≤ (withStrings w.heap S).length by simp [withStrings]) hslot htable (S.length + 2)
    have hpeak' : max (S.length + 2) ((withStrings w.heap S).length + 1 +
        min 1 (List.length LuaTable.empty.entries)) = S.length + 3 := by
      show max (S.length + 2) (S.length + 2 + 1 + 0) = S.length + 3
      omega
    rw [hpeak'] at hcount
    have hindex : ¬ (((2 : Nat) : Int) < 0) := by decide
    rw [writeValue, LuaState.index2adr_mk _ _ _ _ (by decide), hslot]
    simp only [writeTable, hindex, if_false, hcount]
    rfl
  have hp : StringsAt w.heap w.heap.length (w.heap.length + 1)
      { handle := S.length + 1, index2string := S.length + 2, size := 0, cacheSize := 0 }
      (Doc.emptyTable.emit .start).pool (withStrings w.heap S) (w.heap ++ [.empty, .empty]) :=
    stringsAt_create S
  have hfinish := finish_true (d := .emptyTable) (T := w.thread) (p := S.length + 3) hp rfl rfl
    (by simp [Doc.writeSlots])
  rw [← Run.returns_bind (true, _) (finish S.length), ← hvalue, ← hbind] at hfinish
  exact ⟨_, _, Grows.append w.heap _, FileState.callLua_returns hfinish⟩

/-! ### The printer -/

/-- The text is the printed value. -/
def PrintsAs (env : Env) (h : List LuaTable) (v : LuaValue) (maxIndent : Int) (text : Bytes) : Prop :=
  ∃ n, Nested h n v ∧ text = bytesOf "return " ++ dumpText env (printOrder env h) n v 1 maxIndent

/-- The text is the printed value, where the keys of all its tables can be sorted. -/
def DumpsTo (env : Env) (h : List LuaTable) (v : LuaValue) (maxIndent : Int) (text : Bytes) : Prop :=
  Sortable env h v → PrintsAs env h v maxIndent text

/-- The printer ends on an acyclic argument, and keeps the tables.  Where the keys of all tables can
be sorted it prints no line on the console and stays within the buffer of the stack. -/
theorem exists_callLua_dump (hsort : host.env.sort.Rearranges)
    (hT : LibraryTable w.heap w.thread.tableLib) {n : Nat} (hpos : 0 < n) (hle : n ≤ S.length)
    (ha : Acyclic w.heap (slot S n)) (maxIndent : Int) :
    ∃ m, ∀ fuel, m ≤ fuel → ∃ text L, w.Kept L.heap L.thread ∧
      DumpsTo host.env w.heap (slot S n) maxIndent text ∧
      (Sortable host.env w.heap (slot S n) →
        ∃ h' T p, L = ⟨S, h', T, p⟩ ∧ Thread.Quiet (S.length + 5) w.thread S.length T p) ∧
      (w.withStack S).callLua (dumpTable host.env fuel · n maxIndent) =
        .returns (text, ⟨L, w.files⟩) := by
  rw [← valueAt_arg hpos] at ha ⊢
  obtain ⟨m, hm⟩ := ha.exists_nested
  have hidx := validIndex_arg hpos hle
  refine ⟨m, fun fuel hfuel => ?_⟩
  have hn := hm.mono hfuel
  -- sortable keys give the whole text; after a failed sort only that the run ends is known
  by_cases hs : Sortable host.env w.heap (valueAt S n)
  · obtain ⟨L, stream, hrun, h', T, p, rfl, hq, hg, hdata⟩ := dumpValue_prints
      hsort.permutes fuel S w.heap w.thread S.length n 1 maxIndent
      (BinaryWriter.empty.writeString "return ") (Grows.refl w.heap) hidx ⟨hn, hs⟩
    have hdump : dumpTable host.env fuel (.entry S w.heap w.thread) n maxIndent =
        .returns (stream.data, ⟨S, h', T, p⟩) := by
      rw [dumpTable_bind, hrun, Run.returns_bind]
    refine ⟨_, _, ⟨hg, hq.tableLib⟩, fun _ => ⟨fuel, hn, ?_⟩, fun _ => ⟨_, _, _, rfl, hq⟩,
      FileState.callLua_returns hdump⟩
    rw [hdata, BinaryWriter.data_writeString, BinaryWriter.data_empty, List.nil_append]
  · obtain ⟨L, stream, hrun, extra, h', T, p, rfl, hl, hg, _⟩ := dumpValue_leaves hsort fuel S
      w.heap w.thread S.length n 1 maxIndent (BinaryWriter.empty.writeString "return ") rfl hT hidx hn
    have hdump : dumpTable host.env fuel (.entry S w.heap w.thread) n maxIndent =
        .returns (stream.data, ⟨extra ++ S, h', T, p⟩) := by
      rw [dumpTable_bind, hrun, Run.returns_bind]
    exact ⟨_, _, ⟨hg, hl⟩, fun h => absurd h hs, fun h => absurd h hs,
      FileState.callLua_returns hdump⟩

/-- The number that an argument counts as. -/
def Host.number? (host : Host) : LuaValue → Option Binary64
  | .number n => some n
  | .string s => host.str2d s
  | _ => none

/-- The greatest indentation that an argument asks for, where it counts as a number. -/
def Host.maxIndent? (host : Host) (S : List LuaValue) (n : Nat) : Option Int :=
  if n ≤ S.length then (host.number? (slot S n)).map fun x => toInt32 (castInt64 host.env x)
  else some 99

theorem tonumber?_entry {n : Nat} (hpos : 0 < n) :
    (w.withStack S).L.tonumber? host.str2d n = host.number? (slot S n) := by
  have hadr : (w.withStack S).L.index2adr n = slot S n := index2adr_mk _ _ _ _ hpos
  show host.number? ((w.withStack S).L.index2adr n) = _
  rw [hadr]

theorem maxIndentArg_some {n : Nat} (hpos : 0 < n) {i : Int}
    (hi : host.maxIndent? S n = some i) :
    maxIndentArg host (w.withStack S) n = .returns (i, w.withStack S) := by
  unfold Host.maxIndent? at hi
  unfold maxIndentArg
  have htop : (w.withStack S).L.gettop = S.length := rfl
  rw [htop]
  split_ifs at hi ⊢ with hle
  · obtain ⟨x, hx, rfl⟩ := Option.map_eq_some_iff.mp hi
    apply FileState.callLua_returns
    rw [LuaState.checkinteger, tonumber?_entry hpos, hx]
    rfl
  · cases hi
    rfl

theorem maxIndentArg_none {n : Nat} (hpos : 0 < n) (hi : host.maxIndent? S n = none) :
    maxIndentArg host (w.withStack S) n =
      .raises ⟨((w.withStack S).L.pushlstring ((w.withStack S).L.typeMessage n .number)).pushlstring
        (host.site.position ++
          argMessage host.site n ((w.withStack S).L.typeMessage n .number)), w.files⟩ := by
  unfold Host.maxIndent? at hi
  unfold maxIndentArg
  have htop : (w.withStack S).L.gettop = S.length := rfl
  rw [htop]
  split_ifs at hi ⊢ with hle
  apply FileState.callLua_raises
  rw [LuaState.checkinteger, tonumber?_entry hpos, Option.map_eq_none_iff.mp hi]
  rfl

/-- The other arguments do not matter to an indentation. -/
theorem maxIndent?_setSlot (host : Host) {j k : Nat} (hne : j ≠ k) (v : LuaValue) :
    host.maxIndent? (setSlot S k v) j = host.maxIndent? S j := by
  unfold Host.maxIndent?
  rw [length_setSlot, slot_setSlot_of_ne v hne]

theorem typeMessage_setSlot {j k : Nat} (hpos : 0 < j) (hne : j ≠ k) (v : LuaValue)
    (type : LuaType) :
    (w.withStack (setSlot S k v)).L.typeMessage j type = (w.withStack S).L.typeMessage j type := by
  unfold LuaState.typeMessage LuaState.typenameAt
  simp only [World.withStack, LuaState.entry, LuaState.gettop, length_setSlot,
    index2adr_mk _ _ _ _ hpos, slot_setSlot_of_ne v hne]

/-! ### The decoder -/

/-- A run that has decoded `data` leaves the thread as it was, and has written behind the buffer
of the stack where the document takes more slots than there are. -/
def ReadsWithin (host : Host) (w : World) (S : List LuaValue) (data : Bytes) (L : LuaState) : Prop :=
  L.thread = w.thread ∧
    (¬ L.Overrun ↔ S.length + (readDocument data).slots host.sizes ≤ w.thread.slots)

theorem readsWithin_of_peak {data : Bytes} {L : LuaState} (hT : L.thread = w.thread)
    (hp : L.peak = max S.length (S.length + (readDocument data).slots host.sizes)) :
    ReadsWithin host w S data L := by
  refine ⟨hT, ?_⟩
  rw [LuaState.Overrun, hT, hp]
  omega

/-- How a function ends that decodes `data` and hands on `n` values where that fails. -/
def Parses (host : Host) (w : World) (S : List LuaValue) (data : Bytes) (n : Nat) :
    Run FileState (Nat × FileState) → Prop
  | .returns (m, s) => w.Kept s.L.heap s.L.thread ∧ ReadsWithin host w S data s.L ∧
      s.files = w.files ∧ (readDocument data).Legal host.sizes ∧
      ((∃ strs d r, readDocument data = .body strs d r ∧ d.Complete ∧ m = 1 ∧
          s.L.stack = (d.materialise (w.heap ++ [poolTable strs])).1 :: S ∧
          s.L.heap = (d.materialise (w.heap ++ [poolTable strs])).2) ∨
        (¬ (readDocument data).Complete ∧ m = n ∧
          s.L.stack = .string (message (readDocument data)) :: .nil :: S))
  | .raises s => w.Kept s.L.heap s.L.thread ∧ ReadsWithin host w S data s.L ∧ s.files = w.files ∧
      ¬ (readDocument data).Legal host.sizes
  | .diverges => False

/-- Both entry points hand on what the parser returns, one result where it returns one. -/
theorem Parses.of_parseBinaryTable (data : Bytes) {n : Nat}
    {f : Nat × ParseState → Run ParseState (Nat × LuaState)}
    (hone : ∀ s, f (1, s) = .returns (1, s.L)) (htwo : ∀ s, f (2, s) = .returns (n, s.L))
    {g : LuaState → Run ParseState (Nat × LuaState)}
    (hg : g (.entry S w.heap w.thread) =
      (parseBinaryTable host.sizes (.entry S w.heap w.thread) data >>= f)) :
    Parses host w S data n ((w.withStack S).callParse g) := by
  have hdecodes := decodes_entry host.sizes S w.heap w.thread data
  have hframed := framed_parseBinaryTable host.sizes (.entry S w.heap w.thread) data
  have hcomplete := Reading.outcome_eq_complete_iff host.sizes data
  have hfails := Reading.outcome_eq_fails_iff host.sizes data
  have hraises := Reading.outcome_eq_raises_iff host.sizes data
  rw [FileState.callParse, World.withStack, hg]
  -- the outcome of the run is that of the document, so each way it ends says what the bytes are
  match parseBinaryTable host.sizes (.entry S w.heap w.thread) data, hdecodes, hframed with
  | .returns (m, s), hd, hf =>
    rcases hd with ⟨rfl, ho, strs, d, hbody, hL⟩ | ⟨rfl, ho, hst, hpeak⟩
    · obtain ⟨hc, hl⟩ := hcomplete.mp ho
      rw [hbody] at hc
      rw [Run.returns_bind, hone]
      exact ⟨⟨hf.1, congrArg Thread.tableLib hf.2⟩, readsWithin_of_peak hf.2 (by rw [hL]; rfl), rfl,
        hl, Or.inl ⟨strs, d, s.reader, hbody, hc, rfl, by rw [hL]; rfl, by rw [hL]; rfl⟩⟩
    · obtain ⟨hc, hl⟩ := hfails.mp ho
      rw [Run.returns_bind, htwo]
      exact ⟨⟨hf.1, congrArg Thread.tableLib hf.2⟩, readsWithin_of_peak hf.2 hpeak, rfl, hl,
        Or.inr ⟨hc, rfl, hst⟩⟩
  | .raises s, ⟨ho, hpeak⟩, hf =>
    exact ⟨⟨hf.1, congrArg Thread.tableLib hf.2⟩, readsWithin_of_peak hf.2 hpeak, rfl,
      hraises.mp ho⟩
  | .diverges, ho, _ => exact absurd ho (outcome_readDocument host.sizes data)

/-- The string that is the first argument. -/
theorem tolstring_entry {s : Bytes} (hs : slot S 1 = .string s) :
    (LuaState.entry S w.heap w.thread).tolstring 1 = s := by
  have hadr := index2adr_mk S w.heap w.thread S.length (i := 1) (by decide)
  rw [hs, Nat.cast_one] at hadr
  rw [LuaState.tolstring, LuaState.entry, hadr]

/-- `BinaryTable.parse` hands on `nil` and the message. -/
theorem parses_parse (host : Host) (w : World) {data : Bytes} (hdata : slot S 1 = .string data) :
    Parses host w S data 2 ((w.withStack S).callParse (luaBinaryTableParse host.sizes)) := by
  refine Parses.of_parseBinaryTable data (f := fun a => .returns (a.1, a.2.L)) (fun _ => rfl)
    (fun _ => rfl) ?_
  rw [luaBinaryTableParse, tolstring_entry hdata]
  rfl

/-- `BinaryTable.parseFromFile` hands on the message alone. -/
theorem parses_parseFromFile (host : Host) {name data : Bytes} (hname : slot S 1 = .string name)
    (hfile : w.files (cString name) = some data) :
    Parses host w S data 1
      ((w.withStack S).callParse (luaBinaryTableParseFromFile host.sizes w.files.byName)) := by
  refine Parses.of_parseBinaryTable data (f := fun a =>
    if a.1 = 0 then .returns (2, a.2.L.pushnil.pushlstring (bytesOf "Failed parse data"))
    else .returns (1, a.2.L)) (fun _ => rfl) (fun _ => rfl) ?_
  have hbyName : w.files.byName name = some data := hfile
  rw [luaBinaryTableParseFromFile, tolstring_entry hname]
  simp only [hbyName]
  rfl

/-- Where there is no such file. -/
theorem parseFromFile_missing {name : Bytes} (hname : slot S 1 = .string name)
    (hfile : w.files (cString name) = none) :
    (w.withStack S).callParse (luaBinaryTableParseFromFile host.sizes w.files.byName) =
      .returns (2, { w.withStack S with
        L := (w.withStack S).L.pushnil.pushlstring (bytesOf "Failed open input file.") }) := by
  have hbyName : w.files.byName name = none := hfile
  rw [FileState.callParse, World.withStack, luaBinaryTableParseFromFile, tolstring_entry hname]
  simp only [hbyName]
  rfl

end LuaBinaryTable
