/-
  Calculator.Settings.Literal — the number spellings that sources of settings share.

  A decimal is a sign if it likes, digits with at most one point among them, and an exponent
  if it likes; there is a digit before the exponent. A whole number is a sign and digits,
  within the bounds of its width.
-/

import Calculator.Binary64.Decimal

namespace Calculator.Settings.Literal

attribute [local instance] natPower

def unsigned : List Char → List Char
  | '+' :: rest | '-' :: rest => rest
  | s => s

/-- A sign and at least one digit. -/
def isExponent (s : List Char) : Bool :=
  let digits := unsigned s
  !digits.isEmpty && digits.all Char.isDigit

def isMantissa (s : List Char) : Bool :=
  s.any Char.isDigit && s.all (fun c => c.isDigit || c == '.') && s.count '.' ≤ 1

def isExponentMark (c : Char) : Bool := c == 'e' || c == 'E'

/-- What stands before and behind the exponent's mark, without the sign. -/
def mantissaAndExponent (s : List Char) : List Char × List Char :=
  let s := unsigned s
  (s.takeWhile fun c => !isExponentMark c, s.dropWhile fun c => !isExponentMark c)

def isDecimal (s : List Char) : Bool :=
  let (mantissa, exponent) := mantissaAndExponent s
  isMantissa mantissa && (exponent.isEmpty || isExponent (exponent.drop 1))

/-- The text spells a decimal whose nearest double is finite. An exponent that outweighs all
digits of the mantissa decides this by itself. -/
def isFiniteDecimal (s : List Char) : Bool :=
  let (mantissa, exponent) := mantissaAndExponent s
  let exponent := exponent.drop 1
  let size := Nat.ofDigitChars 10 (unsigned exponent) 0
  isDecimal s && (Decimal.ofRun? mantissa).any fun d =>
    let places := d.fraction.length
    if d.scaled = 0 then true
    else if exponent.head? == some '-' then
      mantissa.length ≤ size || isFinite d.scaled (places + size)
    else size < places + 400 && isFinite (d.scaled * 10 ^ size) places
where
  /-- The double nearest to `significand / 10 ^ places` is finite. -/
  isFinite (significand places : Nat) : Bool :=
    (Binary64.ofRatio false (significand * Binary64.unitsPerOne) (10 ^ places)).isFinite

def natural? (base : Nat) (digits : List Char) : Option Nat :=
  if digits.isEmpty then none
  else digits.foldlM (fun n c => (value? c).map (n * base + ·)) 0
where
  value? (c : Char) : Option Nat :=
    let value :=
      if c.isDigit then c.toNat - '0'.toNat
      else if 'a' ≤ c ∧ c ≤ 'f' then c.toNat - 'a'.toNat + 10
      else if 'A' ≤ c ∧ c ≤ 'F' then c.toNat - 'A'.toNat + 10
      else base
    if value < base then some value else none

def fits (bits : Nat) (negative : Bool) (n : Nat) : Bool :=
  if negative then n ≤ 2 ^ (bits - 1) else n < 2 ^ bits

def isWord (bits : Nat) (s : List Char) : Bool :=
  (natural? 10 (unsigned s)).any (fits bits (s.head? == some '-'))

end Calculator.Settings.Literal
