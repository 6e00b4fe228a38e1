/-
  Calculator.Form — the check of an expression's form, before any number is read.

  One scan from the left that stops at the first fault. It keeps how many parentheses are
  open, whether the text so far ends an operand, and whether it ends inside a numeral.
  - A point stands between two digits.
  - An operator stands behind an operand, except a minus where an operand is due.
  - No parenthesis closes that was not opened, and at the end none is open.
  - The text ends with an operand, so it is not empty.
  - No other character occurs, white space included.
-/

import Calculator.Operator

namespace Calculator

/-- What the scan keeps of the text behind it. -/
structure Scan where
  depth : Nat
  /-- The last character ends an operand. -/
  afterOperand : Bool
  inNumeral : Bool
  deriving DecidableEq, Repr

namespace Scan

def start : Scan := ⟨0, false, false⟩

/-- Reads `c`, which stands between `before` and `after`; refused if there is no result. -/
def step (k : Scan) (before : Option Char) (c : Char) (after : Option Char) : Option Scan :=
  if c.isDigit then some { k with afterOperand := true, inNumeral := true }
  else if c = '.' then
    if k.inNumeral && after.any Char.isDigit then some k else none
  else if isOperator c then
    if k.afterOperand || (c == '-' && operandDue before) then some ⟨k.depth, false, false⟩ else none
  else if c = '(' then some ⟨k.depth + 1, false, false⟩
  else if c = ')' then
    match k.depth with
    | 0 => none
    | depth + 1 => some ⟨depth, true, false⟩
  else none

def run (k : Scan) (before : Option Char) : List Char → Option Scan
  | [] => some k
  | c :: rest =>
    match k.step before c rest.head? with
    | none => none
    | some next => next.run (some c) rest

def accepts (k : Scan) : Bool := k.depth == 0 && k.afterOperand

end Scan

def isWellFormed (text : List Char) : Bool := (Scan.start.run none text).any Scan.accepts

end Calculator
