/-
  Calculator.Token — what the two-stack machine reads.

  White space gives no token and every other lexeme one. The first lexeme that cannot be
  read decides the error, whatever stands behind it: a numeral that is no finite double,
  named with its sign, or a character of no class.
-/

import Calculator.Binary64.Decimal
import Calculator.Lexeme

namespace Calculator

inductive Token where
  /-- A number, its sign applied. -/
  | number (x : Binary64)
  | operator (o : Operator)
  | opening
  | closing
  deriving DecidableEq

namespace Token

def readNumeral (negated : Bool) (run : List Char) : Except EvalError Binary64 :=
  match Binary64.ofRun? run with
  | some x => .ok (if negated then -x else x)
  | none => .error (.unreadable (String.ofList (Lexeme.numeral negated run).text))

def ofLexeme : Lexeme → Except EvalError (Option Token)
  | .blank _ => .ok none
  | .operator o => .ok (some (operator o))
  | .opening => .ok (some opening)
  | .closing => .ok (some closing)
  | .numeral negated run => (readNumeral negated run).map fun x => some (number x)
  | .unknown _ => .error .invalid

end Token

def tokenize (text : List Char) : Except EvalError (List Token) :=
  (Lexeme.cut text).filterMapM Token.ofLexeme

end Calculator
