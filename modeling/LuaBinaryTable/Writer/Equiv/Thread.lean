import LuaBinaryTable.Document.Emit

/-!
# The thread of a run

The encoder and the printer change the thread in one place only, the call that sorts the keys of a
table.  It keeps the global `table` and never shrinks the buffer of the stack, and it leaves the
slots that any call of a C function is given (`Thread.le_slots_afterSort`).
-/

namespace LuaBinaryTable

namespace Thread

variable {env : Env}

@[simp] theorem tableLib_afterCall (T : Thread) (peak height : Nat) :
    (T.afterCall env peak height).tableLib = T.tableLib := by
  unfold afterCall
  split <;> rfl

@[simp] theorem tableLib_afterSort (T : Thread) (height peak : Nat) :
    (T.afterSort env height peak).tableLib = T.tableLib :=
  tableLib_afterCall T _ _

@[simp] theorem console_afterSort (T : Thread) (height peak : Nat) :
    (T.afterSort env height peak).console = T.console := by
  unfold afterSort afterCall
  split <;> rfl

@[simp] theorem tableLib_reportUnsorted (T : Thread) : T.reportUnsorted.tableLib = T.tableLib := rfl

@[simp] theorem slots_reportUnsorted (T : Thread) : T.reportUnsorted.slots = T.slots := rfl

/-- A peak below the call's own does not count. -/
theorem afterSort_max (T : Thread) {a height : Nat} (h : a ≤ height) (peak : Nat) :
    T.afterSort env height (max peak a) = T.afterSort env height peak := by
  rw [afterSort, afterSort, Nat.max_assoc, Nat.max_eq_right h]

theorem slots_le_afterSort (T : Thread) (height peak : Nat) :
    T.slots ≤ (T.afterSort env height peak).slots := by
  unfold afterSort afterCall
  split
  · exact Nat.le_max_left _ _
  · exact le_rfl

/-- A call within the buffer finds `LUA_MINSTACK` free slots above its arguments. -/
theorem le_slots_afterSort {T : Thread} {height peak : Nat} (h : max peak height ≤ T.slots) :
    height + luaMinStack ≤ (T.afterSort env height peak).slots := by
  rw [afterSort, afterCall, if_pos h]
  exact (env.le_regrow _ _).trans (Nat.le_max_right _ _)

/-- A run from the thread `T` and the peak `p` to `T'` and `p'`, which prints no line on the console
and stays within a buffer of at least `room` slots. -/
structure Quiet (room : Nat) (T : Thread) (p : Nat) (T' : Thread) (p' : Nat) : Prop where
  tableLib : T'.tableLib = T.tableLib
  console : T'.console = T.console
  slots : T.slots ≤ T'.slots
  fits : p ≤ T.slots → room ≤ T.slots → p' ≤ T'.slots

namespace Quiet

variable {room room' p p' p'' : Nat} {T T' T'' : Thread}

theorem refl (room : Nat) (T : Thread) (p : Nat) : Quiet room T p T p :=
  ⟨rfl, rfl, le_rfl, fun h _ => h⟩

theorem trans (h : Quiet room T p T' p') (h' : Quiet room T' p' T'' p'') :
    Quiet room T p T'' p'' where
  tableLib := h'.tableLib.trans h.tableLib
  console := h'.console.trans h.console
  slots := h.slots.trans h'.slots
  fits hp hroom := h'.fits (h.fits hp hroom) (hroom.trans h.slots)

/-- More room than is needed. -/
theorem mono (h : Quiet room T p T' p') (hle : room ≤ room') : Quiet room' T p T' p' :=
  ⟨h.tableLib, h.console, h.slots, fun hp hroom => h.fits hp (hle.trans hroom)⟩

theorem push (T : Thread) (p : Nat) {height : Nat} (h : height ≤ room) :
    Quiet room T p T (max p height) :=
  ⟨rfl, rfl, le_rfl, fun hp hroom => Nat.max_le.mpr ⟨hp, h.trans hroom⟩⟩

/-- What follows the sort of some keys has the slots that the sort was given. -/
theorem of_sort {height : Nat}
    (h : Quiet (height + luaMinStack) (T.afterSort env height p) (max p height) T' p') :
    Quiet height T p T' p' where
  tableLib := h.tableLib.trans (tableLib_afterSort T _ _)
  console := h.console.trans (console_afterSort T _ _)
  slots := (slots_le_afterSort T height p).trans h.slots
  fits hp hroom := by
    have hmax : max p height ≤ T.slots := Nat.max_le.mpr ⟨hp, hroom⟩
    exact h.fits (hmax.trans (slots_le_afterSort T height p)) (le_slots_afterSort hmax)

end Quiet

end Thread

namespace Doc

variable {env : Env}

mutual

theorem tableLib_threadAfter : ∀ (d : Doc) (e : EmitState) (height p : Nat) (T : Thread),
    (d.threadAfter env e height p T).tableLib = T.tableLib
  | array _ items, _, _, _, T => by rw [threadAfter, tableLib_threadAfterItems items]
  | table _ items, _, _, _, T => by
    rw [threadAfter, tableLib_threadAfterItems items, Thread.tableLib_afterSort]
  | stop w, _, _, _, T => by cases w <;> rfl
  | nil, _, _, _, _ | boolean _, _, _, _, _ | integer _, _, _, _, _ | double _, _, _, _, _
  | string _, _, _, _, _ | emptyTable, _, _, _, _ => rfl

theorem tableLib_threadAfterItems : ∀ (ds : List Doc) (e : EmitState) (height p : Nat)
    (T : Thread), (threadAfterItems env ds e height p T).tableLib = T.tableLib
  | [], _, _, _, _ => rfl
  | d :: ds, e, height, p, T => by
    rw [threadAfterItems]
    split_ifs
    · rw [tableLib_threadAfterItems ds, tableLib_threadAfter d]
    · exact tableLib_threadAfter d e height p T

end

mutual

/-- The only line on the console is that of a sort that fails. -/
theorem console_threadAfter : ∀ (d : Doc) (e : EmitState) (height p : Nat) (T : Thread),
    d.Complete → (d.threadAfter env e height p T).console = T.console
  | array _ items, _, _, _, _, hc => by
    rw [threadAfter, console_threadAfterItems items _ _ _ _ (stopsItems_eq_none.mp hc)]
  | table _ items, _, _, _, _, hc => by
    rw [threadAfter, console_threadAfterItems items _ _ _ _ (stopsItems_eq_none.mp hc),
      Thread.console_afterSort]
  | stop w, _, _, _, _, hc => by cases hc
  | nil, _, _, _, _, _ | boolean _, _, _, _, _, _ | integer _, _, _, _, _, _
  | double _, _, _, _, _, _ | string _, _, _, _, _, _ | emptyTable, _, _, _, _, _ => rfl

theorem console_threadAfterItems : ∀ (ds : List Doc) (e : EmitState) (height p : Nat)
    (T : Thread), (∀ d ∈ ds, d.Complete) → (threadAfterItems env ds e height p T).console = T.console
  | [], _, _, _, _, _ => rfl
  | d :: ds, e, height, p, T, hc => by
    have hd := hc d (List.mem_cons_self ..)
    rw [threadAfterItems, if_pos hd,
      console_threadAfterItems ds _ _ _ _ fun d' hd' => hc d' (List.mem_cons_of_mem _ hd'),
      console_threadAfter d _ _ _ _ hd]

end

/-- Writing keeps the global `table`. -/
theorem tableLib_threadWritten (d : Doc) (height p : Nat) (T : Thread) :
    (d.threadWritten env height p T).tableLib = T.tableLib :=
  tableLib_threadAfter d _ _ _ _

theorem console_threadWritten {d : Doc} (hc : d.Complete) (height p : Nat) (T : Thread) :
    (d.threadWritten env height p T).console = T.console :=
  console_threadAfter d _ _ _ _ hc

end Doc

end LuaBinaryTable
