/-
  Calculator.Binary64.Word — the 64-bit interchange form of a double.

  From the top: a sign bit, eleven bits of exponent and fifty-two of fraction. Counted in
  units, a magnitude with exponent field 0 is its fraction, and one with field `e + 1` is
  `(2 ^ 52 + fraction) * 2 ^ e`; the field of all ones holds the infinities and NaN. So
  the low 63 bits of a magnitude `m * 2 ^ k` in lowest form are `k * 2 ^ 52 + m`.
-/

import Calculator.Binary64

namespace Calculator.Binary64

attribute [local instance] natPower

def signWeight : Nat := 2 ^ (63 : Nat)

def exponentWeight : Nat := 2 ^ (52 : Nat)

def ofWord (word : UInt64) : Binary64 :=
  let bits := word.toNat
  let negative := signWeight ≤ bits
  let exponent := bits / exponentWeight % 2048
  let fraction := bits % exponentWeight
  if exponent = 2047 then if fraction = 0 then infinity negative else nan
  else if exponent = 0 then ofRatio negative fraction 1
  else ofRatio negative ((exponentWeight + fraction) * 2 ^ (exponent - 1)) 1

/-- The word of a double; NaN is written quiet, positive and without a payload. -/
def toWord : Binary64 → UInt64
  | nan => .ofNat (2047 * exponentWeight + exponentWeight / 2)
  | infinity s => .ofNat (signBit s + 2047 * exponentWeight)
  | finite s u _ =>
    let k := u.log2 - 52
    .ofNat (signBit s + k * exponentWeight + u / 2 ^ k)
where
  signBit (negative : Bool) : Nat := if negative then signWeight else 0

end Calculator.Binary64
