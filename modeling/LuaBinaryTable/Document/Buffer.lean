import LuaBinaryTable.Document.Budget
import LuaBinaryTable.Writer.Equiv.Thread

/-!
# The buffer of the stack under the writer

The buffer of the Lua stack grows while a value is written, since every hash table has its keys
sorted by a call, and nothing else makes it grow.  `Doc.buffer` follows its size through a document
and gives up where a value is pushed behind it.  It says of every run of the writer how many slots
the buffer ends with, and whether they were enough (`Doc.buffer_eq`).
-/

namespace LuaBinaryTable

namespace Doc

mutual

/-- The slots of the buffer after the document is written above `height` values and after the
strings `seen`, `none` where a value is pushed behind the buffer on the way. -/
def buffer (env : Env) : Doc → List Bytes → Nat → Nat → Option Nat
  | string s, seen, height, slots =>
    if s = [] ∨ height + (if seen.contains s then 1 else 2) ≤ slots then some slots else none
  | emptyTable, _, height, slots => if height + 1 ≤ slots then some slots else none
  -- an element lies one slot above the array, and `lua_next` needs two to count them
  | array _ items, seen, height, slots =>
    if height + 2 ≤ slots then bufferItems env items seen (height + 1) slots else none
  -- the sort is called with five slots, and leaves the array of keys below each item
  | table _ items, seen, height, slots =>
    if height + 5 ≤ slots then
      bufferItems env items seen (height + 2) (max slots (env.regrow slots (height + 5)))
    else none
  | _, _, _, slots => some slots

def bufferItems (env : Env) : List Doc → List Bytes → Nat → Nat → Option Nat
  | [], _, _, slots => some slots
  | d :: ds, seen, height, slots =>
    match d.buffer env seen height slots with
    | some slots' =>
      if d.Complete then bufferItems env ds (d.remember seen) height slots' else some slots'
    | none => none

end

/-- The file of the document is written above `height` values and within a buffer of `slots` slots.
The string table takes the first two. -/
def BufferFits (env : Env) (d : Doc) (height slots : Nat) : Prop :=
  height + 2 ≤ slots ∧ d.buffer env [] (height + 2) slots ≠ none

instance (env : Env) (d : Doc) (height slots : Nat) : Decidable (d.BufferFits env height slots) :=
  inferInstanceAs (Decidable (_ ∧ _))

variable {env : Env}

mutual

/-- A buffer that is overrun does not grow any more. -/
theorem slots_threadAfter_of_lt : ∀ (d : Doc) (e : EmitState) (height p : Nat) (T : Thread),
    T.slots < p → (d.threadAfter env e height p T).slots = T.slots
  | array _ items, e, height, p, T, hp => by
    rw [threadAfter]
    exact slots_threadAfterItems_of_lt items _ _ _ T (by omega)
  | table _ items, e, height, p, T, hp => by
    have hsort : T.afterSort env (height + 5) p = T := by
      rw [Thread.afterSort, Thread.afterCall, if_neg (by omega)]
    rw [threadAfter, hsort]
    exact slots_threadAfterItems_of_lt items _ _ _ T (by omega)
  | stop w, _, _, _, T, _ => by cases w <;> rfl
  | nil, _, _, _, _, _ | boolean _, _, _, _, _, _ | integer _, _, _, _, _, _
  | double _, _, _, _, _, _ | string _, _, _, _, _, _ | emptyTable, _, _, _, _, _ => rfl

theorem slots_threadAfterItems_of_lt : ∀ (ds : List Doc) (e : EmitState) (height p : Nat)
    (T : Thread), T.slots < p → (threadAfterItems env ds e height p T).slots = T.slots
  | [], _, _, _, _, _ => rfl
  | d :: ds, e, height, p, T, hp => by
    have hd := slots_threadAfter_of_lt d e height p T hp
    rw [threadAfterItems]
    split_ifs
    · rw [slots_threadAfterItems_of_lt ds _ _ _ _ (by omega), hd]
    · exact hd

end

/-- The buffer of a thread at the end of a run, `none` where the peak is behind it. -/
def ended (peak : Nat) (T : Thread) : Option Nat := if peak ≤ T.slots then some T.slots else none

mutual

/-- The buffer computed from the document is the one in which a writer of the document ends. -/
theorem buffer_eq : ∀ (d : Doc) (e : EmitState) (seen : List Bytes) (height p : Nat) (T : Thread),
    e.pool.Knows seen → height ≤ p → p ≤ T.slots → d.buffer env seen height T.slots =
      ended (max p (height + d.writeSlots e)) (d.threadAfter env e height p T)
  | string s, e, seen, height, p, T, hk, hle, hp => by
    have hslots := writeSlots_le_iff (T.slots - height) (string s) e seen hk
    -- one slot for a string that is met again, two for a new one, none for the empty one
    have hiff : (s = [] ∨ height + (if seen.contains s then 1 else 2) ≤ T.slots) ↔
        max p (height + (string s).writeSlots e) ≤ T.slots := by
      rw [WriteFits] at hslots
      rw [Nat.max_le, and_iff_right hp, Nat.add_comm height, ← Nat.le_sub_iff_add_le (hle.trans hp),
        Nat.add_comm height, ← Nat.le_sub_iff_add_le (hle.trans hp), ← hslots]
    rw [buffer, threadAfter, ended]
    · exact if_congr hiff rfl rfl
    all_goals simp
  | emptyTable, e, seen, height, p, T, hk, hle, hp => by
    rw [buffer, threadAfter, ended, writeSlots]
    · exact if_congr (by rw [Nat.max_le, and_iff_right hp]) rfl rfl
    all_goals simp
  | array size items, e, seen, height, p, T, hk, hle, hp => by
    rw [buffer, threadAfter, writeSlots]
    split_ifs with hfit
    · rw [bufferItems_eq items { e with stream := writeLength e.stream .tArray0 size } seen
        (height + 1) (max p (height + 2)) T hk (by omega) (by omega)]
      congr 1
      omega
    · rw [ended, slots_threadAfterItems_of_lt items _ _ _ T (by omega), if_neg (by omega)]
  | table size items, e, seen, height, p, T, hk, hle, hp => by
    rw [buffer, threadAfter, writeSlots]
    split_ifs with hfit
    -- the call of `table.sort` may have given the thread a larger buffer, and the items run in
    -- that
    · have hgrown : (T.afterSort env (height + 5) p).slots =
          max T.slots (env.regrow T.slots (height + 5)) := by
        rw [Thread.afterSort, Thread.afterCall, if_pos (by omega)]
      rw [← hgrown, bufferItems_eq items { e with stream := writeLength e.stream .tTable0 size } seen
        (height + 2) (max p (height + 5)) (T.afterSort env (height + 5) p) hk (by omega) (by omega)]
      congr 1
      omega
    -- behind the buffer no call is made any more, and the overrun stays one
    · have hsort : T.afterSort env (height + 5) p = T := by
        rw [Thread.afterSort, Thread.afterCall, if_neg (by omega)]
      rw [hsort, ended, slots_threadAfterItems_of_lt items _ _ _ T (by omega), if_neg (by omega)]
  | stop w, e, seen, height, p, T, hk, hle, hp => by
    have hmax : max p height ≤ T.slots := Nat.max_le.mpr ⟨hp, hle.trans hp⟩
    cases w <;> exact (if_pos hmax).symm
  | nil, e, seen, height, p, T, hk, hle, hp | boolean _, e, seen, height, p, T, hk, hle, hp
  | integer _, e, seen, height, p, T, hk, hle, hp | double _, e, seen, height, p, T, hk, hle, hp =>
    (if_pos (Nat.max_le.mpr ⟨hp, hle.trans hp⟩)).symm

/-- The items of a table, one after the other. -/
theorem bufferItems_eq : ∀ (ds : List Doc) (e : EmitState) (seen : List Bytes) (height p : Nat)
    (T : Thread), e.pool.Knows seen → height ≤ p → p ≤ T.slots →
      bufferItems env ds seen height T.slots =
        ended (max p (height + writeSlotsItems ds e)) (threadAfterItems env ds e height p T)
  | [], e, seen, height, p, T, hk, hle, hp =>
    (if_pos (Nat.max_le.mpr ⟨hp, hle.trans hp⟩)).symm
  | d :: ds, e, seen, height, p, T, hk, hle, hp => by
    rw [bufferItems, buffer_eq d e seen height p T hk hle hp, threadAfterItems, writeSlotsItems]
    by_cases hfit : max p (height + d.writeSlots e) ≤ (d.threadAfter env e height p T).slots
    · rw [ended, if_pos hfit]
      split_ifs with hc
      · simp only
        rw [bufferItems_eq ds _ _ height _ _ (knows_emit d e seen hk)
          (hle.trans (Nat.le_max_left _ _)) hfit]
        congr 1
        omega
      · rw [Nat.max_zero, ended, if_pos hfit]
    · -- the first item is written behind the buffer, which then stays as it is
      rw [ended, if_neg hfit]
      split_ifs with hc
      · rw [ended, slots_threadAfterItems_of_lt ds _ _ _ _ (by omega), if_neg (by omega)]
      · rw [Nat.max_zero, ended, if_neg hfit]

end

/-- The run of the writer stays within the buffer exactly where the document fits it. -/
theorem bufferFits_iff (d : Doc) (height : Nat) {T : Thread} :
    d.BufferFits env height T.slots ↔
      height + (2 + d.writeSlots .start) ≤ (d.threadWritten env height height T).slots := by
  have hmax : max height (height + 2) = height + 2 := by omega
  rw [BufferFits, threadWritten, hmax]
  by_cases hfit : height + 2 ≤ T.slots
  · rw [buffer_eq d .start [] (height + 2) (height + 2) T .start le_rfl hfit, ended]
    split_ifs with h
    · exact iff_of_true ⟨hfit, by simp⟩ (by omega)
    · exact iff_of_false (by simp) (by omega)
  · rw [slots_threadAfter_of_lt d .start (height + 2) _ T (by omega)]
    exact iff_of_false (fun h => hfit h.1) (by omega)

end Doc

end LuaBinaryTable
