import LuaBinaryTable.Binary64.Equiv.Format

/-!
# Tokens of Lua source

The tokens of the expressions that a dump is made of: the words `return`, `true` and `false`,
integers, strings in double quotes without escapes, and punctuation.  Whitespace separates tokens
and is dropped; a word is as long as possible.  Whatever else Lua knows is not read: an escape, a
long bracket, an operator.

A sign right before its digits is part of the numeral here.  `llex.c` has it as a token of its own,
which the parser then applies to the constant; so `-0` and `0` are one token here and not there,
though the expressions have the same value.
-/

namespace LuaBinaryTable

/-- The tokens of a printed value. -/
inductive Token where
  | chunk
  | boolean (b : Bool)
  | number (i : Int)
  | string (s : Bytes)
  | openBrace | closeBrace | openBracket | closeBracket | assign | comma
  deriving DecidableEq

namespace Token

/-- The whitespace of `llex.c`: space, tab, line feed, vertical tab, form feed, carriage return. -/
def isSpace (c : UInt8) : Bool := c == 32 || (9 ≤ c && c ≤ 13)

def isDigit (c : UInt8) : Bool := 48 ≤ c && c ≤ 57

/-- The characters of names and numbers. -/
def isWordChar (c : UInt8) : Bool :=
  isDigit c || (65 ≤ c && c ≤ 90) || (97 ≤ c && c ≤ 122) || c == 95 || c == 46

/-- The token of a whole word. -/
def ofWord (w : Bytes) : Option Token :=
  if w = bytesOf "return" then some .chunk
  else if w = bytesOf "true" then some (.boolean true)
  else if w = bytesOf "false" then some (.boolean false)
  else
    let digits := if w.head? = some 45 then w.tail else w
    if digits ≠ [] ∧ digits.all isDigit then
      some (.number (if w.head? = some 45 then -(digitsValue digits : Int) else digitsValue digits))
    else none

/-- What the lexer has read of a token. -/
inductive State where
  | blank
  /-- After an opening bracket, which may begin a long one. -/
  | bracket
  /-- After an equals sign. -/
  | equals
  | word (w : Bytes)
  | quoted (s : Bytes)
  deriving DecidableEq

/-- The first character of a token. -/
def start (c : UInt8) : Option (List Token × State) :=
  if isSpace c then some ([], .blank)
  else if isWordChar c ∨ c = 45 then some ([], .word [c])
  else if c = 34 then some ([], .quoted [])
  else if c = 123 then some ([.openBrace], .blank)
  else if c = 125 then some ([.closeBrace], .blank)
  else if c = 91 then some ([.openBracket], .bracket)
  else if c = 93 then some ([.closeBracket], .blank)
  else if c = 61 then some ([.assign], .equals)
  else if c = 44 then some ([.comma], .blank)
  else none

/-- One character more. -/
def step : State → UInt8 → Option (List Token × State)
  | .blank, c => start c
  | .bracket, c => if c = 91 ∨ c = 61 then none else start c
  | .equals, c => if c = 61 then none else start c
  | .word w, c =>
    if isWordChar c then some ([], .word (w ++ [c]))
    else (ofWord w).bind fun t => (start c).map fun r => (t :: r.1, r.2)
  | .quoted s, c =>
    if c = 34 then some ([.string s], .blank)
    else if c = 92 ∨ c = 10 ∨ c = 13 then none
    else some ([], .quoted (s ++ [c]))

/-- The tokens that the end of the text completes. -/
def finish : State → Option (List Token)
  | .word w => (ofWord w).map ([·])
  | .quoted _ => none
  | _ => some []

/-- The tokens of a text from a state on. -/
def lexFrom : State → Bytes → Option (List Token)
  | s, [] => finish s
  | s, c :: cs => (step s c).bind fun r => (lexFrom r.2 cs).map (r.1 ++ ·)

/-- The tokens of a text. -/
def lex (text : Bytes) : Option (List Token) := lexFrom .blank text

example : lex (bytesOf "return \x7b\n\t[\"a\"] = -12,\x7d") =
    some [.chunk, .openBrace, .openBracket, .string [97], .closeBracket, .assign, .number (-12),
      .comma, .closeBrace] := by decide

/-! ### One token and the rest -/

/-- No word goes on at the start of the text. -/
def EndsWord (rest : Bytes) : Prop := ∀ c ∈ rest.head?, isWordChar c = false

@[simp] theorem endsWord_nil : EndsWord [] := by simp [EndsWord]

theorem endsWord_cons {c : UInt8} {cs : Bytes} : EndsWord (c :: cs) ↔ isWordChar c = false := by
  simp [EndsWord]

theorem lexFrom_cons {s : State} {c : UInt8} {ts : List Token} {s' : State}
    (h : step s c = some (ts, s')) (cs : Bytes) :
    lexFrom s (c :: cs) = (lexFrom s' cs).map (ts ++ ·) := by
  rw [lexFrom, h, Option.bind_some]

/-- A character that begins no token of its own. -/
theorem lexFrom_silent {s : State} {c : UInt8} {s' : State} (h : step s c = some ([], s'))
    (cs : Bytes) : lexFrom s (c :: cs) = lexFrom s' cs := by
  rw [lexFrom_cons h]
  exact Option.map_id'

/-- A character that begins a token and ends it. -/
theorem lex_punctuation {c : UInt8} {t : Token} (h : start c = some ([t], .blank)) (cs : Bytes) :
    lex (c :: cs) = (lex cs).map (t :: ·) :=
  lexFrom_cons (s := .blank) h cs

theorem lex_space {c : UInt8} (h : isSpace c = true) (cs : Bytes) : lex (c :: cs) = lex cs := by
  have hstart : step .blank c = some ([], .blank) := by rw [step, start, if_pos h]
  exact lexFrom_silent hstart cs

theorem lex_spaces {ws : Bytes} (h : ∀ c ∈ ws, isSpace c = true) (cs : Bytes) :
    lex (ws ++ cs) = lex cs := by
  induction ws with
  | nil => rfl
  | cons c ws ih =>
    rw [List.cons_append, lex_space (h c (List.mem_cons_self ..)),
      ih fun c' hc => h c' (List.mem_cons_of_mem _ hc)]

/-- A word that is complete is a token. -/
theorem lexFrom_word {t : Token} {rest : Bytes} (hrest : EndsWord rest) :
    ∀ (d w : Bytes), (∀ c ∈ d, isWordChar c = true) → ofWord (w ++ d) = some t →
      lexFrom (.word w) (d ++ rest) = (lex rest).map (t :: ·)
  | [], w, _, ht => by
    rw [List.append_nil] at ht
    cases rest with
    | nil =>
      rw [List.nil_append, lexFrom, finish, ht]
      rfl
    | cons c cs =>
      have hc := endsWord_cons.mp hrest
      -- the character that ends the word starts the next token
      have hstep : step (.word w) c = (start c).map fun r => (t :: r.1, r.2) := by
        rw [step, hc, if_neg Bool.false_ne_true, ht, Option.bind_some]
      rw [List.nil_append, lex, lexFrom, lexFrom, hstep, show step .blank c = start c from rfl]
      cases start c with
      | none => rfl
      | some r =>
        rw [Option.map_some, Option.bind_some, Option.bind_some, Option.map_map]
        rfl
  | c :: d, w, hd, ht => by
    have hstep : step (.word w) c = some ([], .word (w ++ [c])) := by
      rw [step, if_pos (hd c (List.mem_cons_self ..))]
    rw [List.cons_append, lexFrom_silent hstep]
    exact lexFrom_word hrest d (w ++ [c]) (fun c' hc => hd c' (List.mem_cons_of_mem _ hc))
      (by rwa [List.append_assoc])

theorem lex_word {t : Token} {c : UInt8} {d rest : Bytes} (hc : isWordChar c = true ∨ c = 45)
    (hspace : isSpace c = false) (hd : ∀ c' ∈ d, isWordChar c' = true)
    (ht : ofWord (c :: d) = some t) (hrest : EndsWord rest) :
    lex (c :: d ++ rest) = (lex rest).map (t :: ·) := by
  have hstart : step .blank c = some ([], .word [c]) := by
    rw [step, start, hspace, if_neg Bool.false_ne_true, if_pos hc]
  rw [lex, List.cons_append, lexFrom_silent hstart]
  exact lexFrom_word hrest d [c] hd ht

/-- The rest of a string, up to its closing quote. -/
theorem lexFrom_quoted {rest : Bytes} : ∀ (s pre : Bytes),
    (∀ c ∈ s, c ≠ 34 ∧ c ≠ 92 ∧ c ≠ 10 ∧ c ≠ 13) →
      lexFrom (.quoted pre) (s ++ 34 :: rest) = (lex rest).map (.string (pre ++ s) :: ·)
  | [], pre, _ => by
    have hstep : step (.quoted pre) 34 = some ([.string pre], .blank) := by
      rw [step, if_pos rfl]
    rw [List.nil_append, lexFrom_cons hstep, List.append_nil]
    rfl
  | c :: s, pre, hs => by
    obtain ⟨h1, h2, h3, h4⟩ := hs c (List.mem_cons_self ..)
    have hstep : step (.quoted pre) c = some ([], .quoted (pre ++ [c])) := by
      simp [step, h1, h2, h3, h4]
    rw [List.cons_append, lexFrom_silent hstep, lexFrom_quoted s (pre ++ [c])
      fun c' hc => hs c' (List.mem_cons_of_mem _ hc), List.append_assoc, List.singleton_append]

theorem lex_quoted {s rest : Bytes} (hs : ∀ c ∈ s, c ≠ 34 ∧ c ≠ 92 ∧ c ≠ 10 ∧ c ≠ 13) :
    lex (34 :: s ++ 34 :: rest) = (lex rest).map (.string s :: ·) := by
  have hstep : step .blank 34 = some ([], .quoted []) := by decide
  rw [lex, List.cons_append, lexFrom_silent hstep]
  exact lexFrom_quoted s [] hs

/-- An opening bracket, before what begins no long one. -/
theorem lex_bracket {c : UInt8} {cs : Bytes} (hc : c ≠ 91 ∧ c ≠ 61) :
    lex (91 :: c :: cs) = (lex (c :: cs)).map (.openBracket :: ·) := by
  have hopen : step .blank 91 = some ([.openBracket], .bracket) := by decide
  have hstep : step .bracket c = step .blank c := by simp [step, hc]
  rw [lex, lexFrom_cons hopen, lex, lexFrom, lexFrom, hstep]
  rfl

/-- The characters between the key and the value of an entry. -/
theorem lex_assign (cs : Bytes) :
    lex (bytesOf "] = " ++ cs) = (lex cs).map fun ts => .closeBracket :: .assign :: ts := by
  have htext : bytesOf "] = " ++ cs = 93 :: 32 :: 61 :: 32 :: cs := rfl
  have hclose : start 93 = some ([.closeBracket], .blank) := by decide
  have hassign : step .blank 61 = some ([.assign], .equals) := by decide
  have hspace : step .equals 32 = some ([], .blank) := by decide
  rw [htext, lex_punctuation hclose, lex_space (by decide), lex, lexFrom_cons hassign,
    lexFrom_silent hspace, Option.map_map]
  rfl

/-! ### Integers -/

theorem isWordChar_of_isDigit {c : UInt8} (h : isDigit c = true) : isWordChar c = true := by
  simp [isWordChar, h]

theorem isDigit_decimalDigits {k n : Nat} {c : UInt8} (h : c ∈ decimalDigits k n) :
    isDigit c = true := by
  have hc := decimalDigits_mem h
  simp only [isDigit, Bool.and_eq_true, decide_eq_true_eq, UInt8.le_iff_toNat_le]
  exact hc

theorem isDigit_natText {n : Nat} {c : UInt8} (h : c ∈ natText n) : isDigit c = true :=
  isDigit_decimalDigits h

/-- The word of a sign and digits. -/
theorem ofWord_natText (negative : Bool) (n : Nat) :
    ofWord ((if negative then [45] else []) ++ natText n) =
      some (.number (if negative then -(n : Int) else n)) := by
  have hall : (natText n).all isDigit = true := List.all_eq_true.mpr fun c hc => isDigit_natText hc
  obtain ⟨c, d, hcd⟩ := List.exists_cons_of_ne_nil (natText_ne_nil n)
  have hc : isDigit c = true := isDigit_natText (hcd ▸ List.mem_cons_self ..)
  -- the keywords start with a letter, the numeral with a digit or a sign
  have hletter : ∀ (a : UInt8) (as : Bytes), a ≠ 45 → isDigit a = false →
      (if negative then [45] else []) ++ natText n ≠ a :: as := by
    intro a as ha hdigit h
    cases negative with
    | true =>
      cases h
      exact ha rfl
    | false =>
      rw [hcd] at h
      cases h
      rw [hc] at hdigit
      cases hdigit
  have hreturn : (if negative then [45] else []) ++ natText n ≠ bytesOf "return" :=
    hletter 114 _ (by decide) (by decide)
  have htrue : (if negative then [45] else []) ++ natText n ≠ bytesOf "true" :=
    hletter 116 _ (by decide) (by decide)
  have hfalse : (if negative then [45] else []) ++ natText n ≠ bytesOf "false" :=
    hletter 102 _ (by decide) (by decide)
  have hvalue := digitsValue_natText n
  have hne45 : c ≠ 45 := by
    rintro rfl
    cases hc
  rw [ofWord, if_neg hreturn, if_neg htrue, if_neg hfalse]
  cases negative with
  | true =>
    simp [hall, natText_ne_nil, hvalue]
  | false =>
    have hhead : (natText n).head? ≠ some 45 := by
      rw [hcd]
      simpa using hne45
    simp [hall, natText_ne_nil, hvalue, hhead]

/-- An integer is one token, with its sign. -/
theorem lex_integer (negative : Bool) (n : Nat) {rest : Bytes} (hrest : EndsWord rest) :
    lex ((if negative then [45] else []) ++ natText n ++ rest) =
      (lex rest).map (.number (if negative then -(n : Int) else n) :: ·) := by
  have hword := ofWord_natText negative n
  obtain ⟨c, d, hcd⟩ := List.exists_cons_of_ne_nil (natText_ne_nil n)
  have hdigit : ∀ c' ∈ natText n, isWordChar c' = true := fun c' hc =>
    isWordChar_of_isDigit (isDigit_natText hc)
  cases negative with
  | true => exact lex_word (Or.inr rfl) (by decide) hdigit hword hrest
  | false =>
    rw [hcd] at hdigit hword
    have hc := hdigit c (List.mem_cons_self ..)
    simp only [Bool.false_eq_true, if_false, List.nil_append, hcd] at hword ⊢
    refine lex_word (Or.inl hc) ?_ (fun c' h => hdigit c' (List.mem_cons_of_mem _ h)) hword hrest
    -- no character of a word is a space
    have hlo : 48 ≤ c.toNat := (decimalDigits_mem (show c ∈ natText n by rw [hcd]; simp)).1
    simp only [isSpace, Bool.or_eq_false_iff, beq_eq_false_iff_ne, Bool.and_eq_false_iff,
      decide_eq_false_iff_not, UInt8.le_iff_toNat_le, ne_eq, ← UInt8.toNat_inj]
    refine ⟨?_, Or.inr ?_⟩
    · intro h
      rw [h] at hlo
      exact absurd hlo (by decide)
    · intro h
      exact absurd (hlo.trans h) (by decide)

end Token

end LuaBinaryTable
