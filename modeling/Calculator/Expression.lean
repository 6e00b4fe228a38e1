/-
  Calculator.Expression — the value of an expression, or why it has none.
-/

import Calculator.Form
import Calculator.Machine

namespace Calculator

def calculate (text : List Char) : Except EvalError Binary64 :=
  if isWellFormed text then evaluate text else .error .invalid

end Calculator
