/-
  Calculator.Binary64.Shortest — the fewest digits that read back.

  The reals that round to a finite double fill an interval around it, whose ends belong to
  it when its significand is even. Of the decimals in the interval with the fewest digits
  the nearest to the double is taken. With `n` digits only two decimals have to be looked
  at, the neighbours of the double on the grid of that many digits, and 17 are enough.

  All of it is counted in quarters of a unit, so that the interval's ends are naturals.
-/

import Calculator.Binary64

namespace Calculator.Binary64

attribute [local instance] natPower

/-- The reals that round to a positive double, in quarters of a unit. -/
structure Interval where
  value : Nat
  low : Nat
  high : Nat
  /-- The ends round to the double too. -/
  closed : Bool
  deriving DecidableEq, Repr

namespace Interval

/-- The interval of a magnitude. Below a power of two the doubles lie twice as close. -/
def ofUnits (units : Nat) : Interval :=
  let k := units.log2 - 52
  let below := if units = 2 ^ (52 + k) ∧ k ≠ 0 then 2 ^ k else 2 ^ (k + 1)
  ⟨4 * units, 4 * units - below, 4 * units + 2 ^ (k + 1), units / 2 ^ k % 2 == 0⟩

def one : Nat := 4 * unitsPerOne

def digitCount (n : Nat) : Nat := (Nat.toDigits 10 n).length

/-- The `e` with the value in `[10 ^ (e - 1), 10 ^ e)`. -/
def magnitude (i : Interval) : Int :=
  if one ≤ i.value then digitCount (i.value / one) else 1 - (digitCount ((one - 1) / i.value) : Int)

/-- `numerator / denominator` quarters lie in the interval. -/
def contains (i : Interval) (numerator denominator : Nat) : Bool :=
  let low := i.low * denominator
  let high := i.high * denominator
  if i.closed then low ≤ numerator && numerator ≤ high else low < numerator && numerator < high

/-- The decimal `d * 10 ^ exponent` of the interval that is nearest to its value, where
there is one. -/
def nearest? (i : Interval) (exponent : Int) : Option Nat :=
  let grid := one * 10 ^ exponent.toNat
  let scale := 10 ^ (-exponent).toNat
  let below := i.value * scale / grid
  let inBelow := i.contains (below * grid) scale
  let inAbove := i.contains ((below + 1) * grid) scale
  match inBelow, inAbove with
  | true, true => some (roundHalfEven (i.value * scale) grid)
  | true, false => some below
  | false, true => some (below + 1)
  | false, false => none

end Interval

/-- The decimal `0.d₁d₂… * 10 ^ point`. -/
structure Significant where
  digits : List Char
  point : Int
  deriving DecidableEq, Repr

def dropTrailingZeros (digits : List Char) : List Char :=
  (digits.reverse.dropWhile (· == '0')).reverse

/-- The shortest decimal that reads back as a positive magnitude, without zeros at its end. -/
def shortest (units : Nat) : Significant :=
  let i := Interval.ofUnits units
  let found := (List.range 17).findSome? fun n =>
    let exponent := i.magnitude - (n + 1 : Nat)
    (i.nearest? exponent).map (·, exponent)
  let (d, exponent) := found.getD (0, 0)
  let digits := Nat.toDigits 10 d
  ⟨dropTrailingZeros digits, exponent + digits.length⟩

end Calculator.Binary64
