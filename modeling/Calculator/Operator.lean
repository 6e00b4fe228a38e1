/-
  Calculator.Operator — the four operators, what they do, and how evaluation can fail.
-/

import Calculator.Binary64

namespace Calculator

inductive EvalError where
  | invalid
  /-- This run of digits and points, with the sign before it, is no finite double. -/
  | unreadable (numeral : String)
  | divisionByZero
  /-- The operands, operators and parentheses do not match up. -/
  | malformed
  deriving DecidableEq, Repr

/-- The text shown for an error. A numeral holds only digits, points and a sign, so that
nothing between the quotes needs an escape. -/
def EvalError.message : EvalError → String
  | invalid => "invalid expression"
  | unreadable numeral => "malformed number: \"" ++ numeral ++ "\""
  | divisionByZero => "division by zero"
  | malformed => "malformed expression"

inductive Operator where
  | add
  | sub
  | mul
  | div
  deriving DecidableEq, Repr

namespace Operator

def toChar : Operator → Char
  | add => '+'
  | sub => '-'
  | mul => '*'
  | div => '/'

def ofChar? : Char → Option Operator
  | '+' => some add
  | '-' => some sub
  | '*' => some mul
  | '/' => some div
  | _ => none

/-- An operator of higher rank binds tighter. -/
def rank : Operator → Nat
  | add | sub => 1
  | mul | div => 2

/-- Refuses a divisor of zero, whatever its sign. -/
def apply (x : Binary64) : Operator → Binary64 → Except EvalError Binary64
  | add, y => .ok (x + y)
  | sub, y => .ok (x - y)
  | mul, y => .ok (x * y)
  | div, y => if y.isZero then .error .divisionByZero else .ok (x / y)

theorem apply_div_of_isZero {x y : Binary64} (h : y.isZero = true) : div.apply x y = .error .divisionByZero := if_pos h

theorem apply_div_of_not_isZero {x y : Binary64} (h : ¬ y.isZero = true) : div.apply x y = .ok (x / y) := if_neg h

theorem ofChar?_eq_some_iff {c : Char} {o : Operator} : ofChar? c = some o ↔ c = o.toChar := by
  constructor
  · intro h
    unfold ofChar? at h
    split at h <;> cases h <;> rfl
  · rintro rfl
    cases o <;> rfl

end Operator

def isOperator (c : Char) : Bool := (Operator.ofChar? c).isSome

/-- After `before` an operand is due, so that a minus there is a sign: at the start of the
text, after an opening parenthesis and after an operator. -/
def operandDue (before : Option Char) : Bool := before.all fun c => c == '(' || isOperator c

/-- Whether a minus would be a sign, for each position of the text and the one behind it. -/
def signPositions (text : List Char) : List Bool := (none :: text.map some).map operandDue

end Calculator
