import LuaBinaryTable.Writer.Equiv.DumpTable

/-!
# What the writer refuses

`writeBinaryTable` returns the null pointer where it meets a value of a type that the format does
not know, and where the sort of the keys of a table raises (`complete_layout_iff`).  What it meets
are not all the values that the tables hold, as an array is written up to its border only, and how
deep it goes is not bounded by the buffer of the stack.  So it fails exactly on unsupported data
under the condition of `writesSupported_iff`.
-/

namespace LuaBinaryTable

open LuaState

variable {env : Env} {h : List LuaTable}

/-- The format knows the type of the value. -/
def LuaValue.Supported : LuaValue → Prop
  | .lightuserdata _ | .function _ | .userdata _ | .thread _ => False
  | _ => True

/-- `x` is the value, or lies below it as a key or a value. -/
inductive Contains (h : List LuaTable) : LuaValue → LuaValue → Prop
  | refl (v : LuaValue) : Contains h v v
  | key {ref : Nat} {t : LuaTable} {e : LuaValue × LuaValue} {x : LuaValue}
      (ht : h[ref]? = some t) (he : e ∈ t.entries) (hx : Contains h e.1 x) :
      Contains h (.table ref) x
  | value {ref : Nat} {t : LuaTable} {e : LuaValue × LuaValue} {x : LuaValue}
      (ht : h[ref]? = some t) (he : e ∈ t.entries) (hx : Contains h e.2 x) :
      Contains h (.table ref) x

/-- All that the value contains is of a type that the format knows. -/
def AllSupported (h : List LuaTable) (v : LuaValue) : Prop := ∀ x, Contains h v x → x.Supported

/-- `x` is the value, or one of the items written for it. -/
inductive Met (h : List LuaTable) : LuaValue → LuaValue → Prop
  | refl (v : LuaValue) : Met h v v
  | item {ref : Nat} {t : LuaTable} {w x : LuaValue} (ht : h[ref]? = some t) (hw : w ∈ t.items)
      (hx : Met h w x) : Met h (.table ref) x

/-- All that is met is of a type that the format knows. -/
def MetSupported (h : List LuaTable) (v : LuaValue) : Prop := ∀ x, Met h v x → x.Supported

/-- The sort of the keys raises for no table that is met and is not taken for an array. -/
def MetSortable (env : Env) (h : List LuaTable) (v : LuaValue) : Prop :=
  ∀ ref t, Met h v (.table ref) → h[ref]? = some t → t.entries.length ≠ t.border →
    t.sortedKeys env ≠ none

/-! ### What is met -/

variable {t : LuaTable}

theorem met_scalar {v x : LuaValue} (hv : v.type ≠ .table) (hx : Met h v x) : x = v := by
  cases hx with
  | refl => rfl
  | item => exact absurd rfl hv

theorem met_table_iff {ref : Nat} (ht : h[ref]? = some t) {x : LuaValue} :
    Met h (.table ref) x ↔ x = .table ref ∨ ∃ w ∈ t.items, Met h w x := by
  constructor
  · intro hx
    cases hx with
    | refl => exact Or.inl rfl
    | item ht' hw hx =>
      cases ht.symm.trans ht'
      exact Or.inr ⟨_, hw, hx⟩
  · rintro (rfl | ⟨w, hw, hx⟩)
    · exact .refl _
    · exact .item ht hw hx

/-- What is met is contained in the value, a hole aside. -/
theorem Met.contains {v x : LuaValue} (hx : Met h v x) : x = .nil ∨ Contains h v x := by
  induction hx with
  | refl v => exact Or.inr (.refl v)
  | @item ref t w x ht hw hx ih =>
    rcases mem_items hw with ⟨rfl, _⟩ | ⟨e, he, rfl | rfl⟩
    · exact Or.inl (met_scalar (by simp [LuaValue.type]) hx)
    · exact ih.imp_right (.key ht he)
    · exact ih.imp_right (.value ht he)

/-- The layout of a value is complete where all that is met can be written. -/
theorem complete_layout_iff (hperm : env.sort.Permutes) : ∀ {fuel : Nat} {v : LuaValue},
    Nested h fuel v →
      ((layout env h fuel v).Complete ↔ MetSupported h v ∧ MetSortable env h v)
  | fuel + 1, v, hn => by
    cases v with
    | table ref =>
      obtain ⟨t, ht, hes⟩ := hn
      -- the items are nested one level less deep, holes included
      have hitems : ∀ w ∈ t.items, Nested h fuel w := by
        intro w hw
        rcases mem_items hw with ⟨rfl, hne⟩ | ⟨e, he, rfl | rfl⟩
        · -- the table has an entry, so there is fuel for a hole
          obtain ⟨e, es, hcons⟩ := List.exists_cons_of_ne_nil hne
          have hfuel := (hes e (by rw [hcons]; exact List.mem_cons_self ..)).1
          cases fuel with
          | zero => exact hfuel.elim
          | succ fuel => trivial
        · exact (hes e he).1
        · exact (hes e he).2
      simp only [layout, ht]
      rw [complete_layoutTable_iff hperm]
      constructor
      · rintro ⟨hsort, hc⟩
        have hbelow := fun w hw => (complete_layout_iff hperm (hitems w hw)).mp (hc w hw)
        constructor
        · intro x hx
          rcases (met_table_iff ht).mp hx with rfl | ⟨w, hw, hx⟩
          · trivial
          · exact (hbelow w hw).1 x hx
        · intro ref' t' hx ht' hne
          rcases (met_table_iff ht).mp hx with href | ⟨w, hw, hx⟩
          · cases href
            cases ht.symm.trans ht'
            exact hsort hne
          · exact (hbelow w hw).2 ref' t' hx ht' hne
      · rintro ⟨hsup, hsort⟩
        refine ⟨hsort ref t (.refl _) ht, fun w hw => ?_⟩
        exact (complete_layout_iff hperm (hitems w hw)).mpr
          ⟨fun x hx => hsup x (.item ht hw hx),
            fun ref' t' hx ht' => hsort ref' t' (.item ht hw hx) ht'⟩
    | nil | boolean b | string s =>
      refine iff_of_true rfl ⟨fun x hx => ?_, fun ref t hx => ?_⟩
      · exact met_scalar (by simp [LuaValue.type]) hx ▸ trivial
      · cases met_scalar (by simp [LuaValue.type]) hx
    | number x =>
      refine iff_of_true ?_ ⟨fun x hx => ?_, fun ref t hx => ?_⟩
      · simp only [layout]
        split_ifs <;> rfl
      · exact met_scalar (by simp [LuaValue.type]) hx ▸ trivial
      · cases met_scalar (by simp [LuaValue.type]) hx
    | lightuserdata _ | function _ | userdata _ | thread _ =>
      exact iff_of_false (by simp [layout, Doc.Complete, Doc.stops]) fun hc => hc.1 _ (.refl _)

/-! ### The writer -/

/-- `writeBinaryTable` returns bytes exactly where all that the value contains is of a type that the
format knows, and writes nothing behind the buffer of the stack. -/
def WritesSupported (env : Env) (h : List LuaTable) (S : List LuaValue) (T : Thread) (idx : Int) :
    Prop :=
  ∃ n, ∀ fuel, n ≤ fuel → ∃ file L,
    writeBinaryTable env fuel (.entry S h T) idx = .returns (file, L) ∧ ¬ L.Overrun ∧
      (file ≠ none ↔ AllSupported h (valueAt S idx))

/-- All runs with enough fuel are one, so the property is one of the layout. -/
theorem writesSupported_iff_complete (hperm : env.sort.Permutes) {S : List LuaValue} {idx : Int}
    (hidx : ValidIndex S idx) {n : Nat} (hn : Nested h n (valueAt S idx)) (T : Thread) :
    WritesSupported env h S T idx ↔
      (layout env h n (valueAt S idx)).BufferFits env S.length T.slots ∧
        ((layout env h n (valueAt S idx)).Complete ↔ AllSupported h (valueAt S idx)) := by
  -- from `n` on every run is the same
  have hrun : ∀ fuel, n ≤ fuel → ∃ file L, writeBinaryTable env fuel (.entry S h T) idx =
      .returns (file, L) ∧
        (¬ L.Overrun ↔ (layout env h n (valueAt S idx)).BufferFits env S.length T.slots) ∧
          (file ≠ none ↔ (layout env h n (valueAt S idx)).Complete) := by
    intro fuel hle
    obtain ⟨h', _, hr⟩ := writeBinaryTable_of_nested hperm hidx hn T hle
    refine ⟨_, _, hr, not_overrun_iff, ?_⟩
    split_ifs with hc <;> simp [hc]
  constructor
  · rintro ⟨m, hm⟩
    obtain ⟨file, L, hr, hover, hiff⟩ := hm (max m n) (le_max_left m n)
    obtain ⟨file', L', hr', hfits, hiff'⟩ := hrun (max m n) (le_max_right m n)
    rw [hr] at hr'
    cases hr'
    exact ⟨hfits.mp hover, hiff'.symm.trans hiff⟩
  · rintro ⟨hfits, hiff⟩
    refine ⟨n, fun fuel hle => ?_⟩
    obtain ⟨file, L, hr, hover, hiff'⟩ := hrun fuel hle
    exact ⟨file, L, hr, hover.mpr hfits, hiff'.trans hiff⟩

/-- The writer fails exactly on unsupported data where the document fits the buffer of the stack
and, if there are none, the sort raises for no table that is met, and, if there are some, one of
them is met or the sort raises. -/
theorem writesSupported_iff (hperm : env.sort.Permutes) {S : List LuaValue} {idx : Int}
    (hidx : ValidIndex S idx) {n : Nat} (hn : Nested h n (valueAt S idx)) (T : Thread) :
    WritesSupported env h S T idx ↔
      (layout env h n (valueAt S idx)).BufferFits env S.length T.slots ∧
      (AllSupported h (valueAt S idx) → MetSortable env h (valueAt S idx)) ∧
        (¬ AllSupported h (valueAt S idx) →
          ¬ MetSupported h (valueAt S idx) ∨ ¬ MetSortable env h (valueAt S idx)) := by
  rw [writesSupported_iff_complete hperm hidx hn, complete_layout_iff hperm hn]
  have hmet : AllSupported h (valueAt S idx) → MetSupported h (valueAt S idx) := by
    intro hall x hx
    rcases hx.contains with rfl | hx
    · trivial
    · exact hall x hx
  tauto

/-- A number under a name. -/
def numberTable : LuaTable := LuaTable.empty.set (.string [97]) (.number (.ofInt 7))

theorem writesSupported_numberTable :
    WritesSupported .plain [numberTable] [.table 0] (.fresh .nil) 1 := by
  have hkey : ∀ e ∈ numberTable.entries, e = (.string [97], .number (.ofInt 7)) := fun e he =>
    List.mem_singleton.mp he
  have hn : Nested [numberTable] 2 (valueAt [.table 0] 1) :=
    ⟨numberTable, rfl, fun e he => hkey e he ▸ ⟨trivial, trivial⟩⟩
  -- one table: it is no array, and what it holds can be written
  refine (writesSupported_iff insertionSort_permutes ⟨by decide, by decide, by decide⟩ hn
    (.fresh .nil)).mpr ⟨by decide +kernel, fun _ => ?_, fun hall => absurd ?_ hall⟩
  · intro ref t hx ht _
    rcases (met_table_iff rfl).mp hx with href | ⟨w, hw, hx⟩
    · cases href
      cases ht
      decide
    · rcases mem_items hw with ⟨rfl, _⟩ | ⟨e, he, rfl | rfl⟩
      · cases met_scalar (by simp [LuaValue.type]) hx
      · cases met_scalar (by simp [LuaValue.type]) (hkey e he ▸ hx)
      · cases met_scalar (by simp [LuaValue.type]) (hkey e he ▸ hx)
  · intro x hx
    cases hx with
    | refl => trivial
    | key ht he hx =>
      cases ht
      rw [hkey _ he] at hx
      cases hx
      trivial
    | value ht he hx =>
      cases ht
      rw [hkey _ he] at hx
      cases hx
      trivial

/-- The keys of `flagsTable` are two booleans, which the comparator cannot compare. -/
theorem not_writesSupported_flags :
    ¬ WritesSupported .plain [flagsTable] [.table 0] (.fresh .nil) 1 := by
  have hentries : flagsTable.entries =
      [(.boolean true, .boolean true), (.boolean false, .boolean true)] := by decide
  have hbool : ∀ e ∈ flagsTable.entries, ∃ b c, e = (.boolean b, .boolean c) := by
    intro e he
    rw [hentries] at he
    simp only [List.mem_cons, List.not_mem_nil, or_false] at he
    rcases he with rfl | rfl
    · exact ⟨true, true, rfl⟩
    · exact ⟨false, true, rfl⟩
  have hn : Nested [flagsTable] 2 (valueAt [.table 0] 1) := by
    refine ⟨flagsTable, rfl, fun e he => ?_⟩
    obtain ⟨b, c, rfl⟩ := hbool e he
    exact ⟨trivial, trivial⟩
  intro hw
  have hiff := ((writesSupported_iff_complete insertionSort_permutes
    ⟨by decide, by decide, by decide⟩ hn (.fresh .nil)).mp hw).2
  have hc : ¬ (layout .plain [flagsTable] 2 (valueAt [.table 0] 1)).Complete := by decide
  -- were all values supported the layout would be complete, which the sort of the keys prevents
  apply hc
  apply hiff.mpr
  intro x hx
  cases hx with
  | refl => trivial
  | key ht he hx =>
    cases ht
    obtain ⟨b, c, rfl⟩ := hbool _ he
    cases hx
    trivial
  | value ht he hx =>
    cases ht
    obtain ⟨b, c, rfl⟩ := hbool _ he
    cases hx
    trivial

end LuaBinaryTable
