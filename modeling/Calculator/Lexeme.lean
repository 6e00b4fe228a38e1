/-
  Calculator.Lexeme — an expression's text cut into lexemes.

  From the left, the text is cut into white-space characters, the single characters
  `+ - * / ( )`, longest runs of digits and points, and characters of no class. A minus
  with an operand due before it (at index 0, or right behind a parenthesis that opens or
  an operator) is the sign of a numeral and takes the run behind it, even an empty one.
  White space is not looked through: only the very character before a minus counts.

  Main statement: `flatMap_text_cut`: nothing is lost, added or moved.
-/

import Calculator.Operator
import Calculator.Text.Blank

namespace Calculator

inductive Lexeme where
  | blank (c : Char)
  | operator (o : Operator)
  | opening
  | closing
  /-- A run of digits and points, with or without a sign. -/
  | numeral (negated : Bool) (run : List Char)
  | unknown (c : Char)
  deriving DecidableEq, Repr

def isNumeralChar (c : Char) : Bool := c.isDigit || c == '.'

namespace Lexeme

def text : Lexeme → List Char
  | blank c | unknown c => [c]
  | operator o => [o.toChar]
  | opening => ['(']
  | closing => [')']
  | numeral negated run => if negated then '-' :: run else run

def single (c : Char) : Lexeme :=
  if isBlank c then blank c
  else if c = '(' then opening
  else if c = ')' then closing
  else match Operator.ofChar? c with
    | some o => operator o
    | none => unknown c

/-- The first lexeme of `c :: rest` and what it leaves, `before` being the character in
front of it. -/
def next (before : Option Char) (c : Char) (rest : List Char) : Lexeme × List Char :=
  if isNumeralChar c then
    (numeral false (c :: rest.takeWhile isNumeralChar), rest.dropWhile isNumeralChar)
  else if c = '-' ∧ operandDue before then
    (numeral true (rest.takeWhile isNumeralChar), rest.dropWhile isNumeralChar)
  else (single c, rest)

theorem length_next_le (before : Option Char) (c : Char) (rest : List Char) :
    (next before c rest).2.length ≤ rest.length := by
  have := (rest.dropWhile_suffix isNumeralChar).length_le
  unfold next
  split
  · exact this
  · split
    · exact this
    · exact Nat.le_refl _

/-- Cuts `text`, which stands behind `before`, and puts its lexemes behind `done`, the ones
cut so far with the last one first. -/
def cutOnto (done : List Lexeme) (before : Option Char) : List Char → List Lexeme
  | [] => done.reverse
  | c :: rest =>
    let step := next before c rest
    cutOnto (step.1 :: done) step.1.text.getLast? step.2
termination_by text => text.length
decreasing_by exact Nat.lt_succ_of_le (length_next_le ..)

def cut (text : List Char) : List Lexeme := cutOnto [] none text

/-! ## Nothing is lost -/

theorem text_single (c : Char) : (single c).text = [c] := by
  unfold single
  split
  · rfl
  split
  · simp_all [text]
  split
  · simp_all [text]
  split
  · next h => simp [text, Operator.ofChar?_eq_some_iff.1 h]
  · rfl

theorem text_next (before : Option Char) (c : Char) (rest : List Char) :
    (next before c rest).1.text ++ (next before c rest).2 = c :: rest := by
  unfold next
  split
  · simp [text]
  split
  · next h => simp [text, h.1]
  · simp [text_single]

theorem flatMap_text_cutOnto (done : List Lexeme) (before : Option Char) (s : List Char) :
    (cutOnto done before s).flatMap text = done.reverse.flatMap text ++ s := by
  fun_induction cutOnto done before s with
  | case1 => simp
  | case2 done before c rest step ih =>
    rw [ih, ← text_next before c rest]
    simp [step]

/-- The texts of the lexemes make up the text. -/
theorem flatMap_text_cut (s : List Char) : (cut s).flatMap text = s := by
  simp [cut, flatMap_text_cutOnto]

end Lexeme

end Calculator
