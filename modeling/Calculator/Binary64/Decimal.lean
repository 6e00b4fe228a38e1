/-
  Calculator.Binary64.Decimal — doubles read from and written as positional decimals.

  Reading takes a run of digits with at most one point and at least one digit, and rounds
  its exact value once. Writing gives the exact value rounded to two decimals, an exact
  half going to the even neighbour, with all integer digits and the sign of zero kept.
-/

import Calculator.Binary64

namespace Calculator

attribute [local instance] natPower

structure Decimal where
  whole : List Char
  fraction : List Char
  deriving DecidableEq, Repr

namespace Decimal

/-- Splits a run of digits and points. There must be a digit, and at most one point. -/
def ofRun? (run : List Char) : Option Decimal :=
  let whole := run.takeWhile (· != '.')
  let fraction := (run.dropWhile (· != '.')).drop 1
  if fraction.contains '.' || (whole.isEmpty && fraction.isEmpty) then none else some ⟨whole, fraction⟩

/-- The digits without the point: the value times `10 ^ fraction.length`. -/
def scaled (d : Decimal) : Nat := Nat.ofDigitChars 10 (d.whole ++ d.fraction) 0

def toBinary64 (d : Decimal) : Binary64 :=
  .ofRatio false (d.scaled * Binary64.unitsPerOne) (10 ^ d.fraction.length)

end Decimal

namespace Binary64

def ofRun? (run : List Char) : Option Binary64 :=
  (Decimal.ofRun? run).map Decimal.toBinary64 |>.filter isFinite

/-- A number of hundredths with its point: at least one digit before it and two after. -/
def hundredthsText (n : Nat) : String :=
  (n / 100).repr ++ "." ++ (n / 10 % 10).repr ++ (n % 10).repr

/-- The magnitude in hundredths, rounded half to even. -/
def hundredths (units : Nat) : Nat := roundHalfEven (units * 100) unitsPerOne

def twoDecimals : Binary64 → String
  | nan => "NaN"
  | infinity s => minus s ++ "inf"
  | finite s u _ => minus s ++ hundredthsText (hundredths u)
where
  minus (negative : Bool) : String := if negative then "-" else ""

end Binary64

end Calculator
