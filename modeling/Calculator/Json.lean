/-
  Calculator.Json — the values JSON text denotes.

  A number keeps the kind its spelling gives it: whole, when it is written without point
  and exponent and lies from -2^63 up to 2^64 - 1, and else a double. An object keeps its
  members as written, in order and with duplicate names; `lookup` is the rule for
  duplicates: the last member of a name counts.
-/

import Calculator.Binary64

namespace Calculator

inductive Json.Number where
  | whole (n : Int)
  | real (x : Binary64)
  deriving DecidableEq

inductive Json where
  | null
  | bool (b : Bool)
  | number (n : Json.Number)
  | text (s : String)
  | array (items : List Json)
  | object (members : List (String × Json))

/-- The value of the last member named `name`. -/
def Json.lookup (name : String) (members : List (String × Json)) : Option Json :=
  (members.reverse.find? (·.1 == name)).map (·.2)

end Calculator
