import LuaBinaryTable.Source.Lexer

/-!
# Quoted strings of Lua

`read_string` of `llex.c`, with its escapes.  A byte string between quotes is read back as itself
exactly where it holds no quote, no backslash and no line break (`readString_quoted_iff`): whatever
else is read, an escape takes more characters than it stands for.  The count of the lines is left
out.
-/

namespace LuaBinaryTable

open Token

/-! ### The reader -/

/-- `currIsNewline`. -/
def isNewline (c : UInt8) : Bool := c == 10 || c == 13

/-- What `inclinenumber` leaves of the text behind the line break `old`: a pair of two different
ones counts as one. -/
def inclinenumber (old : UInt8) : Bytes → Bytes
  | [] => []
  | c :: rest => if isNewline c && c != old then rest else c :: rest

/-- The escapes that stand for a control character. -/
def controlEscape (c : UInt8) : Option UInt8 :=
  if c = 97 then some 7
  else if c = 98 then some 8
  else if c = 102 then some 12
  else if c = 110 then some 10
  else if c = 114 then some 13
  else if c = 116 then some 9
  else if c = 118 then some 11
  else none

/-- The number `c` continued by up to `n` digits, and what follows them. -/
def readDecimal : Nat → Nat → Bytes → Nat × Bytes
  | n + 1, c, d :: rest =>
    if isDigit d then readDecimal n (10 * c + (d.toNat - 48)) rest else (c, d :: rest)
  | _, c, rest => (c, rest)

/-- What stands behind a backslash: the character that is meant, and the text that follows. -/
def readEscape : Bytes → Option (UInt8 × Bytes)
  -- the end of the text raises an error in the next round of the loop
  | [] => none
  | c :: rest =>
    match controlEscape c with
    | some d => some (d, rest)
    | none =>
      if isNewline c then some (10, inclinenumber c rest)
      else if isDigit c then
        let (n, rest) := readDecimal 3 0 (c :: rest)
        if 255 < n then none else some (UInt8.ofNat n, rest)
      else some (c, rest)

/-- The loop of `read_string`, with the characters it has saved.  Each round takes a character. -/
def readStringLoop (del : UInt8) : Nat → Bytes → Bytes → Option (Bytes × Bytes)
  | 0, _, _ => none
  | _ + 1, [], _ => none
  | fuel + 1, c :: rest, buff =>
    if c = del then some (buff, rest)
    else if isNewline c then none
    else if c = 92 then do
      let (d, rest) ← readEscape rest
      readStringLoop del fuel rest (buff ++ [d])
    else readStringLoop del fuel rest (buff ++ [c])

/-- `read_string`, at the opening quote: the string, and the text behind the closing quote. -/
def readString : Bytes → Option (Bytes × Bytes)
  | [] => none
  | del :: rest => readStringLoop del (rest.length + 1) rest []

example : readString [34, 92, 54, 53, 92, 110, 34, 44] = some ([65, 10], [44]) := by decide

/-! ### Lengths -/

theorem length_inclinenumber_le (old : UInt8) (text : Bytes) :
    (inclinenumber old text).length ≤ text.length := by
  cases text with
  | nil => exact le_rfl
  | cons c rest =>
    rw [inclinenumber]
    split_ifs
    · exact Nat.le_succ _
    · exact le_rfl

theorem length_readDecimal_le (n c : Nat) (text : Bytes) :
    (readDecimal n c text).2.length ≤ text.length := by
  induction n generalizing c text with
  | zero => cases text <;> exact le_rfl
  | succ n ih =>
    cases text with
    | nil => exact le_rfl
    | cons d rest =>
      rw [readDecimal]
      split_ifs
      · exact (ih _ rest).trans (Nat.le_succ _)
      · exact le_rfl

/-- An escape takes at least one character behind the backslash. -/
theorem length_readEscape_lt {text rest : Bytes} {d : UInt8}
    (h : readEscape text = some (d, rest)) : rest.length < text.length := by
  cases text with
  | nil => cases h
  | cons c text =>
    rw [readEscape] at h
    split at h
    · cases h
      exact Nat.lt_succ_self _
    · split_ifs at h with hnewline hdigit
      · cases h
        exact Nat.lt_succ_of_le (length_inclinenumber_le c text)
      · rw [readDecimal, if_pos hdigit] at h
        dsimp only at h
        split_ifs at h
        cases h
        exact Nat.lt_succ_of_le (length_readDecimal_le 2 _ text)
      · cases h
        exact Nat.lt_succ_self _

variable {del : UInt8}

/-! ### Strings that stand for themselves -/

/-- The characters that a literal between quotes `del` has as they are. -/
def Plain (del c : UInt8) : Prop := c ≠ del ∧ isNewline c = false ∧ c ≠ 92

/-- A string is read from its own characters, or from more characters than it has. -/
theorem readStringLoop_eq (fuel : Nat) (text buff s rest : Bytes)
    (h : readStringLoop del fuel text buff = some (s, rest)) :
    (∃ p, (∀ c ∈ p, Plain del c) ∧ s = buff ++ p ∧ text = p ++ del :: rest) ∨
      s.length + rest.length + 1 < buff.length + text.length := by
  induction fuel generalizing text buff with
  | zero => cases h
  | succ fuel ih =>
    cases text with
    | nil => cases h
    | cons c text =>
      rw [readStringLoop] at h
      split_ifs at h with hdel hnewline hbackslash
      · cases h
        left
        exact ⟨[], List.forall_mem_nil _, (List.append_nil _).symm, by rw [hdel]; rfl⟩
      · -- an escape leaves less text than it adds to the string
        right
        obtain ⟨⟨d, text'⟩, hescape, hloop⟩ := Option.bind_eq_some_iff.mp h
        have hlt := length_readEscape_lt hescape
        rcases ih text' (buff ++ [d]) hloop with ⟨p, _, rfl, rfl⟩ | hshort
        · simp only [List.length_append, List.length_cons, List.length_nil] at hlt ⊢
          omega
        · simp only [List.length_append, List.length_cons, List.length_nil] at hshort ⊢
          omega
      · rcases ih text (buff ++ [c]) h with ⟨p, hplain, rfl, rfl⟩ | hshort
        · left
          refine ⟨c :: p, List.forall_mem_cons.mpr ⟨?_, hplain⟩, ?_, rfl⟩
          · exact ⟨hdel, Bool.eq_false_iff.mpr hnewline, hbackslash⟩
          · rw [List.append_assoc, List.singleton_append]
        · right
          simp only [List.length_append, List.length_cons, List.length_nil] at hshort ⊢
          omega

/-- Plain characters are saved one by one. -/
theorem readStringLoop_plain {p : Bytes} (hp : ∀ c ∈ p, Plain del c) (rest : Bytes) (fuel : Nat)
    (buff : Bytes) (hfuel : p.length < fuel) :
    readStringLoop del fuel (p ++ del :: rest) buff = some (buff ++ p, rest) := by
  induction p generalizing fuel buff with
  | nil =>
    obtain ⟨fuel, rfl⟩ := Nat.exists_eq_add_of_lt hfuel
    show readStringLoop del _ (del :: rest) buff = _
    rw [readStringLoop, if_pos rfl, List.append_nil]
  | cons c p ih =>
    obtain ⟨⟨hdel, hnewline, hbackslash⟩, hplain⟩ := List.forall_mem_cons.mp hp
    obtain ⟨fuel, rfl⟩ := Nat.exists_eq_add_of_lt hfuel
    show readStringLoop del (_ + 1) (c :: (p ++ del :: rest)) buff = _
    rw [readStringLoop, if_neg hdel, if_neg (Bool.eq_false_iff.mp hnewline), if_neg hbackslash,
      ih hplain _ _ (by simp only [List.length_cons]; omega), List.append_assoc,
      List.singleton_append]

/-- A string between quotes is read back as itself, up to the closing quote, exactly where its
characters are plain. -/
theorem readString_quoted_iff (s rest : Bytes) :
    readString (del :: s ++ [del] ++ rest) = some (s, rest) ↔ ∀ c ∈ s, Plain del c := by
  have htext : del :: s ++ [del] ++ rest = del :: (s ++ del :: rest) := by
    rw [List.append_assoc, List.cons_append, List.singleton_append]
  rw [htext, readString]
  constructor
  · intro h
    rcases readStringLoop_eq _ _ _ _ _ h with ⟨p, hplain, hs, _⟩ | hshort
    · rw [List.nil_append] at hs
      exact hs ▸ hplain
    · -- the text has just the characters of the string, its quote and the rest
      simp only [List.length_append, List.length_cons, List.length_nil] at hshort
      omega
  · intro hplain
    apply readStringLoop_plain hplain
    rw [List.length_append]
    omega

end LuaBinaryTable
