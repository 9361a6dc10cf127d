import LuaBinaryTable.Document.Equiv.Read

/-!
# Legal documents

What a document asks of Lua may be refused: a table of a size that `lua_createtable` does not
accept, or an entry whose key is `nil` or a `NaN`.  A document without such a demand is `Legal`.

The outcome of a run of the decoder follows from this and from whether the document is complete
(`outcome_eq_complete_iff`, `outcome_eq_raises_iff`, `outcome_eq_fails_iff`), since in a document
that is read only the last value can break off.
-/

namespace LuaBinaryTable

namespace Doc

section

variable (sizes : TableSizes)

mutual

/-- No demand of the document is refused. -/
def Legal : Doc → Prop
  | array size items => sizes (toInt32 size) 0 = true ∧ LegalItems items
  | table size items => sizes 0 (toInt32 size) = true ∧ LegalEntries items
  | _ => True

def LegalItems : List Doc → Prop
  | [] => True
  | d :: ds => d.Legal ∧ LegalItems ds

/-- An entry counts once its value is complete, for only then it is stored. -/
def LegalEntries : List Doc → Prop
  | [] => True
  | [k] => k.Legal
  | k :: v :: ds => k.Legal ∧ v.Legal ∧ (v.Complete → k.isKey = true) ∧ LegalEntries ds

end

end

mutual

/-- Only the last value can break off. -/
def BreaksLast : Doc → Prop
  | array _ items => BreaksLastItems items
  | table _ items => BreaksLastItems items
  | _ => True

def BreaksLastItems : List Doc → Prop
  | [] => True
  | d :: ds => d.BreaksLast ∧ (d.Complete ∨ ds = []) ∧ BreaksLastItems ds

end

/-! ### What is read breaks off last -/

theorem breaksLast_readItems {rd : BinaryReader → Doc × BinaryReader}
    (h : ∀ r, (rd r).1.BreaksLast) :
    ∀ (n : Nat) (r : BinaryReader), BreaksLastItems (readItems rd n r).1
  | 0, _ => trivial
  | n + 1, r => by
    by_cases hc : (rd r).1.Complete
    · simp only [readItems, hc, if_true]
      exact ⟨h r, Or.inl hc, breaksLast_readItems h n (rd r).2⟩
    · simp only [readItems, hc, if_false]
      exact ⟨h r, Or.inr rfl, trivial⟩

theorem breaksLast_build {type : BinaryType} {pool : Nat → Doc} {b : Bytes} {ds : List Doc}
    (hpool : (pool (leNat b)).BreaksLast) (h : BreaksLastItems ds) :
    (type.build pool b ds).BreaksLast := by
  cases type with
  | tString8 | tString16 | tString32 => exact hpool
  | tArray8 | tArray16 | tArray32 | tTable8 | tTable16 | tTable32 => exact h
  | _ => trivial

theorem breaksLast_poolDoc (t : LuaTable) (size i : Nat) : (poolDoc t size i).BreaksLast := by
  unfold poolDoc
  split_ifs
  · split <;> trivial
  · trivial

theorem breaksLast_readDoc (t : LuaTable) (size : Nat) : ∀ (fuel : Nat) (r : BinaryReader),
    (readDoc (poolDoc t size) fuel r).1.BreaksLast
  | 0, _ => trivial
  | fuel + 1, r => by
    simp only [readDoc]
    cases BinaryType.ofNat? r.readType.1 with
    | none => trivial
    | some type =>
      exact breaksLast_build (breaksLast_poolDoc t size _)
        (breaksLast_readItems (breaksLast_readDoc t size fuel) _ _)

/-! ### The outcome -/

variable {sizes : TableSizes}

mutual

theorem outcome_eq_complete_iff : ∀ (d : Doc),
    d.outcome sizes = .complete ↔ d.Complete ∧ d.Legal sizes
  | array size items => by
    rw [outcome, Legal, Complete, stops]
    split_ifs with hs
    · simp [outcomeItems_eq_complete_iff items, hs]
    · simp [hs]
  | table size items => by
    rw [outcome, Legal, Complete, stops]
    split_ifs with hs
    · simp [outcomeEntries_eq_complete_iff items, hs]
    · simp [hs]
  | stop why => by cases why <;> simp [outcome, Stop.outcome, Complete, stops]
  | nil | boolean _ | integer _ | double _ | string _ | emptyTable => by
    simp [outcome, Complete, stops, Legal]

theorem outcomeItems_eq_complete_iff : ∀ (ds : List Doc),
    outcomeItems sizes ds = .complete ↔ stopsItems ds = none ∧ LegalItems sizes ds
  | [] => by simp [outcomeItems, stopsItems, LegalItems]
  | d :: ds => by
    rw [outcomeItems, Outcome.andThen_eq_complete, outcome_eq_complete_iff d,
      outcomeItems_eq_complete_iff ds, LegalItems, stopsItems, Option.or_eq_none_iff, Complete]
    tauto

/-- Keys and values in turns: a key has to be one that a table can hold. -/
theorem outcomeEntries_eq_complete_iff : ∀ (ds : List Doc),
    outcomeEntries sizes ds = .complete ↔ stopsItems ds = none ∧ LegalEntries sizes ds
  | [] => by simp [outcomeEntries, stopsItems, LegalEntries]
  | [k] => by
    rw [outcomeEntries, outcome_eq_complete_iff k, LegalEntries, stopsItems, stopsItems,
      Option.or_none, Complete]
  | k :: v :: ds => by
    rw [outcomeEntries, Outcome.andThen_eq_complete, Outcome.andThen_eq_complete,
      outcome_eq_complete_iff k, outcome_eq_complete_iff v, LegalEntries, stopsItems, stopsItems,
      Option.or_eq_none_iff, Option.or_eq_none_iff, Complete, Complete]
    split_ifs with hk
    · rw [outcomeEntries_eq_complete_iff ds]
      tauto
    · simp only [hk, reduceCtorEq, and_false, false_iff]
      tauto

end

mutual

theorem outcome_eq_raises_iff : ∀ (d : Doc), d.BreaksLast →
    (d.outcome sizes = .raises ↔ ¬ d.Legal sizes)
  | array size items, hb => by
    rw [outcome, Legal]
    split_ifs with hs
    · simp [outcomeItems_eq_raises_iff items hb, hs]
    · simp [hs]
  | table size items, hb => by
    rw [outcome, Legal]
    split_ifs with hs
    · simp [outcomeEntries_eq_raises_iff items hb, hs]
    · simp [hs]
  | stop why, _ => by cases why <;> simp [outcome, Stop.outcome, Legal]
  | nil, _ | boolean _, _ | integer _, _ | double _, _ | string _, _ | emptyTable, _ => by
    simp [outcome, Legal]

theorem outcomeItems_eq_raises_iff : ∀ (ds : List Doc), BreaksLastItems ds →
    (outcomeItems sizes ds = .raises ↔ ¬ LegalItems sizes ds)
  | [], _ => by simp [outcomeItems, LegalItems]
  | d :: ds, ⟨hd, hlast, hds⟩ => by
    have h1 := outcome_eq_raises_iff d hd
    have h2 := outcomeItems_eq_raises_iff ds hds
    have h3 : d.outcome sizes = .complete ↔ _ := outcome_eq_complete_iff d
    rw [outcomeItems, LegalItems]
    cases ho : d.outcome sizes with
    | complete =>
      rw [Outcome.complete_andThen, h2, and_iff_right (h3.mp ho).2]
    | raises => exact iff_of_true rfl fun h => h1.mp ho h.1
    | fails | diverges =>
      rw [ho] at h1 h3
      obtain rfl := hlast.resolve_left fun hc => by simpa using h3.mpr ⟨hc, by simpa using h1⟩
      exact iff_of_false (by simp [Outcome.andThen]) (not_not.mpr ⟨by simpa using h1, trivial⟩)

/-- An entry is stored, which may raise an error, as soon as its value is read. -/
theorem outcomeEntries_eq_raises_iff : ∀ (ds : List Doc), BreaksLastItems ds →
    (outcomeEntries sizes ds = .raises ↔ ¬ LegalEntries sizes ds)
  | [], _ => by simp [outcomeEntries, LegalEntries]
  | [k], ⟨hk, _, _⟩ => by
    rw [outcomeEntries, LegalEntries]
    exact outcome_eq_raises_iff k hk
  | k :: v :: ds, ⟨hk, hklast, hv, hvlast, hds⟩ => by
    have hk1 := outcome_eq_raises_iff k hk
    have hk3 : k.outcome sizes = .complete ↔ _ := outcome_eq_complete_iff k
    have hv1 := outcome_eq_raises_iff v hv
    have hv3 : v.outcome sizes = .complete ↔ _ := outcome_eq_complete_iff v
    have hds1 := outcomeEntries_eq_raises_iff ds hds
    rw [outcomeEntries, LegalEntries]
    cases hok : k.outcome sizes with
    | complete =>
      rw [Outcome.complete_andThen, and_iff_right (hk3.mp hok).2]
      cases hov : v.outcome sizes with
      | complete =>
        obtain ⟨hvc, hvl⟩ := hv3.mp hov
        rw [Outcome.complete_andThen, and_iff_right hvl]
        split_ifs with hkey
        · simp [hds1, hkey]
        · simp [hkey, hvc]
      | raises => exact iff_of_true rfl fun h => hv1.mp hov h.1
      | fails | diverges =>
        rw [hov] at hv1 hv3
        have hvl : v.Legal sizes := by simpa using hv1
        have hvc : ¬ v.Complete := fun hc => by simpa using hv3.mpr ⟨hc, hvl⟩
        obtain rfl := hvlast.resolve_left hvc
        exact iff_of_false (by simp [Outcome.andThen])
          (not_not.mpr ⟨hvl, fun hc => absurd hc hvc, trivial⟩)
    | raises => exact iff_of_true rfl fun h => hk1.mp hok h.1
    | fails | diverges =>
      rw [hok] at hk1 hk3
      -- the key breaks off, so it cannot have a value behind it
      exact absurd (hklast.resolve_left fun hc => by simpa using hk3.mpr ⟨hc, by simpa using hk1⟩)
        (by simp)

end

end Doc

namespace Reading

/-- Header, pool and body are complete. -/
def Complete : Reading → Prop
  | body _ d _ => d.Complete
  | _ => False

/-- No demand of what is read is refused. -/
def Legal (sizes : TableSizes) : Reading → Prop
  | brokenPool size _ => sizes (toInt32 size) 0 = true
  | body strs d _ => sizes (toInt32 strs.length) 0 = true ∧ d.Legal sizes
  | _ => True

variable (sizes : TableSizes) (data : Bytes)

/-- The body that is read breaks off last. -/
theorem breaksLast_readDocument {strs : List Bytes} {d : Doc} {r : BinaryReader}
    (h : readDocument data = .body strs d r) : d.BreaksLast := by
  obtain ⟨_, _, r₀, _, _, hd⟩ := readDocument_body h
  have hb := Doc.breaksLast_readDoc (fillPool 0 LuaTable.empty strs) strs.length
    (data.length + 1) r₀
  rwa [← hd] at hb

theorem outcome_eq_complete_iff :
    (readDocument data).outcome sizes = .complete ↔
      (readDocument data).Complete ∧ (readDocument data).Legal sizes := by
  cases h : readDocument data with
  | invalidFormat | invalidVersion _ => simp [outcome, Complete]
  | brokenPool size strs => simp only [outcome, Complete, false_and, iff_false]; split_ifs <;> simp
  | body strs d r =>
    rw [outcome, Complete, Legal]
    split_ifs with hs
    · simp [Doc.outcome_eq_complete_iff, hs]
    · simp [hs]

theorem outcome_eq_raises_iff :
    (readDocument data).outcome sizes = .raises ↔ ¬ (readDocument data).Legal sizes := by
  cases h : readDocument data with
  | invalidFormat | invalidVersion _ => simp [outcome, Legal]
  | brokenPool size strs => simp only [outcome, Legal]; split_ifs with hs <;> simp [hs]
  | body strs d r =>
    rw [outcome, Legal]
    split_ifs with hs
    · simp [Doc.outcome_eq_raises_iff d (breaksLast_readDocument data h), hs]
    · simp [hs]

theorem outcome_eq_fails_iff :
    (readDocument data).outcome sizes = .fails ↔
      ¬ (readDocument data).Complete ∧ (readDocument data).Legal sizes := by
  have h1 := outcome_eq_complete_iff sizes data
  have h2 := outcome_eq_raises_iff sizes data
  have h3 := outcome_readDocument sizes data
  cases ho : (readDocument data).outcome sizes with
  | complete => simp [(h1.mp ho).1]
  | raises => simp [h2.mp ho]
  | diverges => exact absurd ho h3
  | fails =>
    rw [ho] at h1 h2
    have hl : (readDocument data).Legal sizes := by simpa using h2
    exact iff_of_true rfl ⟨fun hc => by simpa using h1.mpr ⟨hc, hl⟩, hl⟩

end Reading

end LuaBinaryTable
