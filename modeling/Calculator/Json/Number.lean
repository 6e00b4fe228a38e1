/-
  Calculator.Json.Number — numbers, read and written.

  A number is a sign, digits without a leading zero, and a fraction and an exponent if it
  likes. Without these two it is whole as far as 64 bits go, and a double beyond; minus
  zero is a double. The double of a decimal is not the nearest one: the digits make up a
  significand for as long as it stays below 2^64, digits past that only count towards
  the exponent, and the significand, rounded, is multiplied or divided by a power of
  ten, rounded too. A number above the largest double is refused; one below the least
  becomes zero.

  Written, a double has the fewest digits that read back, with a point; from 10^16 and
  below 10^-5 it has an exponent.
-/

import Calculator.Binary64.Shortest
import Calculator.Json
import Calculator.Json.Reader

namespace Calculator.Json

attribute [local instance] natPower

/-- The parts of a number as it is written; each list holds the values of digits. -/
structure Numeral where
  negative : Bool
  whole : List Nat
  /-- The digits behind the point, if there is one. -/
  fraction : Option (List Nat)
  /-- The exponent, if there is one: whether it is negative, and its digits. -/
  exponent : Option (Bool × List Nat)
  deriving DecidableEq, Repr

namespace Numeral

def digit? (b : UInt8) : Option Nat :=
  let c := Char.ofUInt8 b
  if c.isDigit then some (c.toNat - '0'.toNat) else none

def isDigit (b : UInt8) : Bool := (digit? b).isSome

def digits (input : List UInt8) : List Nat := (input.takeWhile isDigit).filterMap digit?

def afterDigits (input : List UInt8) : List UInt8 := input.dropWhile isDigit

theorem length_afterDigits_le (input : List UInt8) : (afterDigits input).length ≤ input.length :=
  (input.dropWhile_suffix _).length_le

def someDigits : Reader (List Nat) where
  read
    | [] => .error .truncated
    | b :: rest =>
      match digit? b with
      | some d => .ok (d :: digits rest, afterDigits rest)
      | none => .error .illFormed
  shorter := by
    intro input value rest h
    split at h
    · cases h
    split at h
    · cases h; exact Nat.lt_succ_of_le (length_afterDigits_le _)
    · cases h

/-- The digits in front of the point: a zero, or digits that do not start with one. -/
def wholeDigits : Reader (List Nat) where
  read input :=
    match someDigits.read input with
    | .ok (0 :: _ :: _, _) => .error .illFormed
    | result => result
  shorter := by
    intro input value rest h
    split at h
    · cases h
    · exact someDigits.shorter h

def fractionPart (input : List UInt8) : Except Fault (Option (List Nat) × List UInt8) :=
  match input with
  | b :: rest =>
    if Char.ofUInt8 b = '.' then (someDigits.map some).read rest else .ok (none, input)
  | [] => .ok (none, input)

def exponentPart (input : List UInt8) : Except Fault (Option (Bool × List Nat) × List UInt8) :=
  match input with
  | b :: rest =>
    if Char.ofUInt8 b = 'e' ∨ Char.ofUInt8 b = 'E' then
      match rest with
      | s :: after =>
        if Char.ofUInt8 s = '+' then (someDigits.map fun ds => some (false, ds)).read after
        else if Char.ofUInt8 s = '-' then (someDigits.map fun ds => some (true, ds)).read after
        else (someDigits.map fun ds => some (false, ds)).read rest
      | [] => .error .truncated
    else .ok (none, input)
  | [] => .ok (none, input)

theorem length_fractionPart_le {input rest : List UInt8} {value : Option (List Nat)}
    (h : fractionPart input = .ok (value, rest)) : rest.length ≤ input.length := by
  unfold fractionPart at h
  split at h
  · split at h
    · exact Nat.le_succ_of_le (Nat.le_of_lt ((someDigits.map some).shorter h))
    · cases h; exact Nat.le_refl _
  · cases h; exact Nat.le_refl _

theorem length_exponentPart_le {input rest : List UInt8} {value : Option (Bool × List Nat)}
    (h : exponentPart input = .ok (value, rest)) : rest.length ≤ input.length := by
  unfold exponentPart at h
  split at h
  · split at h
    · split at h
      · split at h
        · have := (someDigits.map _).shorter h; simp; omega
        split at h
        · have := (someDigits.map _).shorter h; simp; omega
        · have := (someDigits.map _).shorter h; simp at this ⊢; omega
      · cases h
    · cases h; exact Nat.le_refl _
  · cases h; exact Nat.le_refl _

def unsigned (negative : Bool) : Reader Numeral where
  read input :=
    match wholeDigits.read input with
    | .error e => .error e
    | .ok (whole, rest) =>
      match fractionPart rest with
      | .error e => .error e
      | .ok (fraction, rest) =>
        match exponentPart rest with
        | .error e => .error e
        | .ok (exponent, rest) => .ok (⟨negative, whole, fraction, exponent⟩, rest)
  shorter := by
    intro input value rest h
    split at h
    · cases h
    next hw =>
    split at h
    · cases h
    next hf =>
    split at h
    · cases h
    next he =>
    have h1 := wholeDigits.shorter hw
    have h2 := length_fractionPart_le hf
    have h3 := length_exponentPart_le he
    cases h
    omega

def reader : Reader Numeral where
  read
    | b :: rest => if Char.ofUInt8 b = '-' then (unsigned true).read rest else (unsigned false).read (b :: rest)
    | [] => .error .truncated
  shorter := by
    intro input value rest h
    split at h
    · split at h
      · exact Nat.lt_succ_of_lt ((unsigned true).shorter h)
      · exact (unsigned false).shorter h
    · cases h

/-! ## The value -/

/-- Appends digits to a significand for as long as it stays below 2^64. The second number
counts the digits left over. -/
def append (significand : Nat) : List Nat → Nat × Nat
  | [] => (significand, 0)
  | d :: ds =>
    if significand * 10 + d < UInt64.size then append (significand * 10 + d) ds else (significand, ds.length + 1)

def natural (digits : List Nat) : Nat := digits.foldl (fun n d => n * 10 + d) 0

def powerOfTen (n : Nat) : Binary64 := .ofNat (10 ^ n)

/-- Divides by `10 ^ n`, by at most `10 ^ 308` at a time, and stops at zero. -/
def divideByPower (x : Binary64) (n : Nat) : Binary64 :=
  if n ≤ 308 then x / powerOfTen n
  else if x.isZero then x
  else divideByPower (x / powerOfTen 308) (n - 308)
termination_by n

/-- `significand * 10 ^ exponent`, unless it is above the largest double. -/
def scaled? (significand : Nat) (exponent : Int) : Option Binary64 :=
  let x := Binary64.ofNat significand
  if exponent < 0 then some (divideByPower x exponent.natAbs)
  else if exponent ≤ 308 then some (x * powerOfTen exponent.toNat) |>.filter Binary64.isFinite
  else if x.isZero then some x
  else none

/-- The double of a number; the exponent has to stay below 2^31, unless the digits in front
of it are all zero or it is negative, when the number is zero. -/
def real? (n : Numeral) : Option Binary64 :=
  let (whole, surplus) := append 0 n.whole
  let fraction := n.fraction.getD []
  let (significand, unused) := append whole fraction
  let shift := (surplus : Int) - (fraction.length - unused : Nat)
  let magnitude? : Option Binary64 :=
    match n.exponent with
    | none => scaled? significand shift
    | some (negative, ds) =>
      let exponent := natural ds
      if exponent < UInt32.size / 2 then scaled? significand (if negative then shift - exponent else shift + exponent)
      else if negative || significand == 0 then some (.ofNat 0)
      else none
  magnitude?.map fun x => if n.negative then -x else x

def value? (n : Numeral) : Option Number :=
  if n.fraction.isNone && n.exponent.isNone then
    let m := natural n.whole
    if !n.negative && m < UInt64.size then some (.whole m)
    else if n.negative && 0 < m && m ≤ UInt64.size / 2 then some (.whole (-m))
    else n.real?.map .real
  else n.real?.map .real

end Numeral

def Number.reader : Reader Number where
  read input :=
    match Numeral.reader.read input with
    | .error e => .error e
    | .ok (n, rest) =>
      match n.value? with
      | some value => .ok (value, rest)
      | none => .error .illFormed
  shorter := by
    intro input value rest h
    split at h
    · cases h
    next hn =>
    split at h
    · cases h; exact Numeral.reader.shorter hn
    · cases h

/-- A number that is only passed over; its range does not matter. -/
def Number.skipper : Reader Unit := (Numeral.reader.map fun _ => ()).orFail .illFormed

/-! ## Writing -/

def significantText (d : Binary64.Significant) : String :=
  let ds := d.digits
  if 0 < d.point ∧ d.point ≤ 16 then
    let n := d.point.toNat
    let fraction := ds.drop n
    .ofList (ds.take n ++ List.replicate (n - ds.length) '0' ++ '.' :: if fraction.isEmpty then ['0'] else fraction)
  else if -5 < d.point ∧ d.point ≤ 0 then
    .ofList ('0' :: '.' :: (List.replicate (-d.point).toNat '0' ++ ds))
  else
    let mantissa := match ds with
      | d :: rest@(_ :: _) => d :: '.' :: rest
      | ds => ds
    .ofList (mantissa ++ ['e']) ++ (d.point - 1).repr

/-- A double as JSON; what is not finite has no form of its own. -/
def realText : Binary64 → String
  | .finite negative units _ =>
    (if negative then "-" else "") ++ if units = 0 then "0.0" else significantText (Binary64.shortest units)
  | _ => "null"

def Number.text : Number → String
  | whole n => n.repr
  | real x => realText x

end Calculator.Json
