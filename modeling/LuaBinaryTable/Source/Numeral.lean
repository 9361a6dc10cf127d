import LuaBinaryTable.Source.Lexer
import Mathlib.Algebra.Field.Rat

/-!
# Decimal numerals

A numeral is a sign, digits, a fraction and an exponent, the last two of which may be missing, and
denotes a rational number (`numeralValue`).  Nothing is rounded here.
-/

namespace LuaBinaryTable

open Token

/-- The parts of a numeral. -/
structure Numeral where
  negative : Bool
  whole : Bytes
  fraction : Bytes
  exponent : Int

/-- The number that the digits denote under the exponent. -/
def Numeral.value (x : Numeral) : ℚ :=
  (if x.negative then -1 else 1) * (digitsValue (x.whole ++ x.fraction) : ℚ) *
    10 ^ (x.exponent - x.fraction.length)

/-- The exponent, zero where there is none. -/
def readExponent : Bytes → Option Int
  | [] => some 0
  | c :: rest =>
    let digits := if rest.head? = some 45 ∨ rest.head? = some 43 then rest.tail else rest
    if (c = 101 ∨ c = 69) ∧ digits ≠ [] ∧ digits.all isDigit then
      some (if rest.head? = some 45 then -(digitsValue digits : Int) else digitsValue digits)
    else none

/-- The digits behind a decimal point, none where there is no point, and what follows them. -/
def readFraction (rest : Bytes) : Bytes × Bytes :=
  if rest.head? = some 46 then (rest.tail.takeWhile isDigit, rest.tail.dropWhile isDigit)
  else ([], rest)

/-- A numeral without its sign. -/
def readUnsigned (negative : Bool) (text : Bytes) : Option Numeral :=
  let whole := text.takeWhile isDigit
  let (fraction, rest) := readFraction (text.dropWhile isDigit)
  if whole = [] ∧ fraction = [] then none
  else (readExponent rest).map fun e => ⟨negative, whole, fraction, e⟩

/-- The numeral that is the whole text. -/
def readNumeral (text : Bytes) : Option Numeral :=
  if text.head? = some 45 then readUnsigned true text.tail else readUnsigned false text

/-- The number that a text denotes as a numeral. -/
def numeralValue (text : Bytes) : Option ℚ := (readNumeral text).map Numeral.value

/-! ### Reading a numeral from its parts -/

variable {ds rest whole fraction : Bytes}

/-- Neither a digit nor a decimal point goes on at the start of the text. -/
def EndsDigits (rest : Bytes) : Prop := ∀ c ∈ rest.head?, isDigit c = false ∧ c ≠ 46

theorem takeWhile_digits (hds : ∀ c ∈ ds, isDigit c = true)
    (hrest : ∀ c ∈ rest.head?, isDigit c = false) : (ds ++ rest).takeWhile isDigit = ds := by
  rw [List.takeWhile_append_of_pos hds]
  cases rest with
  | nil => exact List.append_nil ds
  | cons c rest =>
    rw [List.takeWhile_cons_of_neg (Bool.eq_false_iff.mp (hrest c rfl)), List.append_nil]

theorem dropWhile_digits (hds : ∀ c ∈ ds, isDigit c = true)
    (hrest : ∀ c ∈ rest.head?, isDigit c = false) : (ds ++ rest).dropWhile isDigit = rest := by
  rw [List.dropWhile_append_of_pos hds]
  cases rest with
  | nil => rfl
  | cons c rest => exact List.dropWhile_cons_of_neg (Bool.eq_false_iff.mp (hrest c rfl))

theorem readFraction_fractionText (hfraction : ∀ c ∈ fraction, isDigit c = true)
    (hrest : EndsDigits rest) : readFraction (fractionText fraction ++ rest) = (fraction, rest) := by
  unfold fractionText readFraction
  by_cases hempty : fraction = []
  · rw [if_pos hempty, hempty, List.nil_append]
    apply if_neg
    intro hpoint
    exact (hrest 46 hpoint).2 rfl
  · have hdigits : ∀ c ∈ rest.head?, isDigit c = false := fun c hc => (hrest c hc).1
    rw [if_neg hempty, List.cons_append, List.head?_cons, if_pos rfl, List.tail_cons,
      takeWhile_digits hfraction hdigits, dropWhile_digits hfraction hdigits]

/-- No digit goes on at a fraction. -/
theorem head?_fractionText (hrest : EndsDigits rest) :
    ∀ c ∈ (fractionText fraction ++ rest).head?, isDigit c = false := by
  intro c hc
  unfold fractionText at hc
  by_cases hempty : fraction = []
  · rw [if_pos hempty, List.nil_append] at hc
    exact (hrest c hc).1
  · rw [if_neg hempty, List.cons_append, List.head?_cons, Option.mem_some_iff] at hc
    rw [← hc]
    rfl

theorem readUnsigned_parts (negative : Bool) (hne : whole ≠ [])
    (hwhole : ∀ c ∈ whole, isDigit c = true) (hfraction : ∀ c ∈ fraction, isDigit c = true)
    (hrest : EndsDigits rest) :
    readUnsigned negative (whole ++ (fractionText fraction ++ rest)) =
      (readExponent rest).map fun e => ⟨negative, whole, fraction, e⟩ := by
  have hhead := @head?_fractionText rest fraction hrest
  simp only [readUnsigned]
  rw [takeWhile_digits hwhole hhead, dropWhile_digits hwhole hhead,
    readFraction_fractionText hfraction hrest]
  exact if_neg fun hboth => hne hboth.1

/-- A numeral is taken apart where its digits end. -/
theorem readNumeral_parts (negative : Bool) (hne : whole ≠ [])
    (hwhole : ∀ c ∈ whole, isDigit c = true) (hfraction : ∀ c ∈ fraction, isDigit c = true)
    (hrest : EndsDigits rest) :
    readNumeral ((if negative then [45] else []) ++ (whole ++ (fractionText fraction ++ rest))) =
      (readExponent rest).map fun e => ⟨negative, whole, fraction, e⟩ := by
  rw [← readUnsigned_parts negative hne hwhole hfraction hrest]
  cases negative with
  | true => rfl
  | false =>
    -- a digit is not taken for the sign
    obtain ⟨c, cs, rfl⟩ := List.exists_cons_of_ne_nil hne
    apply if_neg
    intro hsign
    have hc : c = 45 := Option.some.inj hsign
    exact absurd (hwhole c List.mem_cons_self) (by rw [hc]; decide)

end LuaBinaryTable
