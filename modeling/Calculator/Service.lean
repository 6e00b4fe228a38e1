/-
  Calculator.Service — the calculator with its memory: the last correct result.

  A result is written with two decimals. It is remembered only if the calculation
  succeeds; a failure leaves the memory as it was.
-/

import Calculator.Expression

namespace Calculator

structure Service where
  last : Option String
  deriving DecidableEq, Repr

def resultText (expression : String) : Except EvalError String :=
  (calculate expression.toList).map Binary64.twoDecimals

namespace Service

def fresh : Service := ⟨none⟩

def calculate (s : Service) (expression : String) : Except EvalError String × Service :=
  match resultText expression with
  | .ok text => (.ok text, ⟨some text⟩)
  | .error e => (.error e, s)

/-- What is answered does not depend on what is remembered. -/
theorem fst_calculate (s : Service) (expression : String) : (s.calculate expression).1 = resultText expression := by
  unfold calculate
  cases resultText expression with
  | error e => rfl
  | ok t => rfl

def greeting (s : Service) : String :=
  match s.last with
  | some text => "Last correct result: " ++ text
  | none => "Welcome to the calculator server. Send a POST request to start working."

end Service

end Calculator
