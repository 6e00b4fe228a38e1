/-
  Calculator.Phrase — expressions as trees: how they are written and what they mean.

  A sum is a product, or a sum, an operator of rank 1 and a product. A product is a factor,
  or a product, an operator of rank 2 and a factor. A factor is a literal, a literal under
  a minus sign, or a sum in parentheses. So operators of one rank group to the left, and a
  higher rank binds tighter.

  The meaning of a tree is found without any reading of text but that of its literals:
  from the leaves up, the left operand before the right one.
-/

import Calculator.Token

namespace Calculator

/-- Digits, and behind a point more digits if there are any. -/
structure Literal where
  whole : List Char
  fraction : Option (List Char)
  isDigit_of_mem_whole : ∀ c ∈ whole, c.isDigit
  isDigit_of_mem_fraction : ∀ digits ∈ fraction, ∀ c ∈ digits, c.isDigit
  whole_ne_nil : whole ≠ []
  fraction_ne_nil : fraction ≠ some []

def Literal.text (l : Literal) : List Char :=
  l.whole ++ match l.fraction with
    | none => []
    | some digits => '.' :: digits

inductive Phrase.Level where
  | sum
  | product
  | factor
  deriving DecidableEq, Repr

inductive Phrase : Phrase.Level → Type where
  | literal (l : Literal) : Phrase .factor
  | negated (l : Literal) : Phrase .factor
  | group (inner : Phrase .sum) : Phrase .factor
  | ofFactor (x : Phrase .factor) : Phrase .product
  | multiplicative (x : Phrase .product) (o : Operator) (rank_eq : o.rank = 2) (y : Phrase .factor) : Phrase .product
  | ofProduct (x : Phrase .product) : Phrase .sum
  | additive (x : Phrase .sum) (o : Operator) (rank_eq : o.rank = 1) (y : Phrase .product) : Phrase .sum

namespace Phrase

def text {level : Level} : Phrase level → List Char
  | literal l => l.text
  | negated l => '-' :: l.text
  | group inner => '(' :: inner.text ++ [')']
  | ofFactor x | ofProduct x => x.text
  | multiplicative x o _ y | additive x o _ y => x.text ++ o.toChar :: y.text

def value {level : Level} : Phrase level → Except EvalError Binary64
  | literal l => Token.readNumeral false l.text
  | negated l => Token.readNumeral true l.text
  | group x | ofFactor x | ofProduct x => x.value
  | multiplicative x o _ y | additive x o _ y => do o.apply (← x.value) (← y.value)

theorem text_ne_nil {level : Level} (x : Phrase level) : x.text ≠ [] := by
  induction x with
  | literal l => simp [text, Literal.text, l.whole_ne_nil]
  | negated | group | multiplicative | additive => simp [text]
  | ofFactor x ih => exact ih
  | ofProduct x ih => exact ih

end Phrase

def IsExpression (text : List Char) : Prop := ∃ x : Phrase .sum, x.text = text

end Calculator
