import LuaBinaryTable.Luabt.Main

/-!
# Where `luabt` writes

Without the option `-o` the output of `luabt` is its input with `.dat` for an extension, in either
mode, so the two are one file exactly where the input ends in `.dat` (`dstFile_ne_srcFile_iff`).
-/

namespace LuaBinaryTable

namespace Luabt

/-! ### The path of the output -/

/-- A byte of the list is the last, where none follows it. -/
theorem findLastOf_append {chars s : Bytes} {c : UInt8} (hc : chars.contains c = true)
    (hs : findLastOf chars s = none) (p : Bytes) :
    findLastOf chars (p ++ c :: s) = some p.length := by
  induction p with
  | nil =>
    show findLastOf chars (c :: s) = some 0
    rw [findLastOf, hs]
    exact if_pos hc
  | cons d p ih =>
    show findLastOf chars (d :: (p ++ c :: s)) = some (p.length + 1)
    rw [findLastOf, ih]

/-- The output is the input exactly where the input already ends in `.dat`. -/
theorem defaultDstFile_eq_iff (srcFile : Bytes) :
    defaultDstFile srcFile = srcFile ↔ bytesOf ".dat" <:+ srcFile := by
  constructor
  · intro h
    rw [← h]
    exact List.suffix_append _ _
  · rintro ⟨p, rfl⟩
    -- the dot of `.dat` is the last of the three bytes
    have hlast : findLastOf (bytesOf "/\\.") (p ++ bytesOf ".dat") = some p.length :=
      findLastOf_append (by decide) (by decide) p
    have hdot : (p ++ bytesOf ".dat")[p.length]? = some 46 := by
      rw [List.getElem?_append_right le_rfl, Nat.sub_self]
      rfl
    simp only [defaultDstFile, hlast]
    rw [if_pos hdot, List.take_left]

/-! ### The loop over the arguments -/

/-- Without `-o` the loop leaves the output alone, and what it takes for the source is the only
argument that is neither a mode nor empty. -/
theorem scanArgs_ok {args : List Bytes} (hargs : bytesOf "-o" ∉ args) {o o' : Options}
    (h : scanArgs args o = .ok o') :
    o'.dstFile = o.dstFile ∧ (o'.srcFile = o.srcFile ∨ o.srcFile = [] ∧ o'.srcFile ∈ args) ∧
      ∀ arg ∈ args, arg = bytesOf "-c" ∨ arg = bytesOf "-d" ∨ arg = [] ∨ arg = o'.srcFile := by
  induction args generalizing o with
  | nil =>
    cases h
    exact ⟨rfl, Or.inl rfl, fun arg harg => absurd harg List.not_mem_nil⟩
  | cons arg args ih =>
    rw [List.mem_cons, not_or] at hargs
    rw [scanArgs.eq_def] at h
    dsimp only at h
    split_ifs at h with hc hd ho hsrc
    · obtain ⟨hdst, hfile, hall⟩ := ih hargs.2 h
      refine ⟨hdst, hfile.imp_right fun hm => ⟨hm.1, List.mem_cons_of_mem _ hm.2⟩, ?_⟩
      exact List.forall_mem_cons.mpr ⟨Or.inl hc, hall⟩
    · obtain ⟨hdst, hfile, hall⟩ := ih hargs.2 h
      refine ⟨hdst, hfile.imp_right fun hm => ⟨hm.1, List.mem_cons_of_mem _ hm.2⟩, ?_⟩
      exact List.forall_mem_cons.mpr ⟨Or.inr (Or.inl hd), hall⟩
    · exact absurd ho.symm hargs.1
    · obtain ⟨hdst, hfile, hall⟩ := ih hargs.2 h
      -- an empty argument is taken for the source, and leaves the next one to be taken
      rcases hfile with hfile | ⟨hempty, hmem⟩
      · refine ⟨hdst, Or.inr ⟨hsrc, hfile ▸ List.mem_cons_self⟩, ?_⟩
        exact List.forall_mem_cons.mpr ⟨Or.inr (Or.inr (Or.inr hfile.symm)), hall⟩
      · refine ⟨hdst, Or.inr ⟨hsrc, List.mem_cons_of_mem _ hmem⟩, ?_⟩
        exact List.forall_mem_cons.mpr ⟨Or.inr (Or.inr (Or.inl hempty)), hall⟩

variable {argv : List Bytes} {srcFile dstFile : Bytes}

theorem files_ite {p : Prop} [Decidable p] :
    (if p then Command.compressFile srcFile dstFile
      else .decompressFile srcFile dstFile).files = some (srcFile, dstFile) := by
  split_ifs <;> rfl

/-- What an accepted command line without `-o` comes to: the source is one of the arguments, the
only one that can end in `.dat`, and the destination is made from it. -/
theorem files_of_main (hargs : bytesOf "-o" ∉ argv.tail)
    (h : (main argv).files = some (srcFile, dstFile)) :
    dstFile = defaultDstFile srcFile ∧ srcFile ∈ argv.tail ∧
      ∀ arg ∈ argv.tail, bytesOf ".dat" <:+ arg → arg = srcFile := by
  unfold main at h
  by_cases hlen : argv.length < 2
  · rw [if_pos hlen] at h
    cases h
  · rw [if_neg hlen] at h
    split at h
    · cases h
    · next o hscan =>
      obtain ⟨hdst, hfile, hall⟩ := scanArgs_ok hargs hscan
      by_cases hsrc : o.srcFile = []
      · rw [if_pos hsrc] at h
        cases h
      · simp only [if_neg hsrc, files_ite, if_pos hdst, Option.some.injEq, Prod.mk.injEq] at h
        obtain ⟨rfl, rfl⟩ := h
        refine ⟨rfl, (hfile.resolve_left hsrc).2, fun arg harg hdat => ?_⟩
        -- neither a mode nor the empty argument ends in `.dat`
        rcases hall arg harg with rfl | rfl | rfl | rfl
        · exact absurd hdat (by decide)
        · exact absurd hdat (by decide)
        · exact absurd hdat (by decide)
        · rfl

/-- Without `-o` the destination differs from the source exactly where no argument ends in
`.dat`. -/
theorem dstFile_ne_srcFile_iff (hargs : bytesOf "-o" ∉ argv.tail)
    (h : (main argv).files = some (srcFile, dstFile)) :
    dstFile ≠ srcFile ↔ ∀ arg ∈ argv.tail, ¬ bytesOf ".dat" <:+ arg := by
  obtain ⟨rfl, hmem, honly⟩ := files_of_main hargs h
  rw [Ne, defaultDstFile_eq_iff]
  constructor
  · intro hdat arg harg hsuffix
    exact hdat (honly arg harg hsuffix ▸ hsuffix)
  · intro hno
    exact hno srcFile hmem

/-- `luabt -d foo.lua` writes `foo.dat`. -/
theorem dstFile_ne_srcFile_lua :
    (main [bytesOf "luabt", bytesOf "-d", bytesOf "foo.lua"]).files =
        some (bytesOf "foo.lua", bytesOf "foo.dat") ∧
      bytesOf "foo.dat" ≠ bytesOf "foo.lua" :=
  ⟨by decide, (@dstFile_ne_srcFile_iff [bytesOf "luabt", bytesOf "-d", bytesOf "foo.lua"] _ _
    (by decide) (by decide)).mpr (by decide)⟩

/-- `luabt -d foo.dat` writes over its input. -/
theorem main_overwrites :
    main [bytesOf "luabt", bytesOf "-d", bytesOf "foo.dat"] =
      .decompressFile (bytesOf "foo.dat") (bytesOf "foo.dat") := by
  decide

end Luabt

end LuaBinaryTable
