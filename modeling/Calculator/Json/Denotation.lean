/-
  Calculator.Json.Denotation — the values of writings.

  `Spells` and `Denotes` say which text pieces are and which value a writing has, by the rules and
  without reading anything. A number without fraction and exponent is whole as far as 64 bits go. Any other
  one is a double: of the digits, first those in front of the point and then those behind it, as many make up
  the significand as keep it below 2^64, the others only count towards the exponent; the significand,
  rounded, is multiplied by a rounded power of ten or divided by one. A number above the largest
  double has no value.

  Nor has a string with a surrogate that stands alone or bytes that are not UTF-8, nor a writing in which
  arrays and objects nest too deep (`Flaw`).
-/

import Calculator.Json.Writing

namespace Calculator.Json

attribute [local instance] natPower

/-! ## Numbers -/

namespace Numeral

/-- The number that digits make up behind the digits of `m`. -/
def spelled (m : Nat) (digits : List Nat) : Nat := digits.foldl (fun m d => m * 10 + d) m

inductive Whole (n : Numeral) : Int → Prop
  | positive : n.negative = false → n.fraction = none → n.exponent = none → spelled 0 n.whole < UInt64.size →
      Whole n (spelled 0 n.whole)
  | negative : n.negative = true → n.fraction = none → n.exponent = none → 0 < spelled 0 n.whole →
      spelled 0 n.whole ≤ UInt64.size / 2 → Whole n (-(spelled 0 n.whole))

/-- Of the digits behind those of `m` the longest front that keeps the number below 2^64: that number, and
how many digits are left over. -/
inductive Fits (m : Nat) : List Nat → Nat → Nat → Prop
  | intro {front back : List Nat} : spelled m front < UInt64.size →
      (∀ d, back.head? = some d → UInt64.size ≤ spelled m front * 10 + d) → Fits m (front ++ back) (spelled m front) back.length

/-- A double divided by `10 ^ n`, by at most `10 ^ 308` at a time, until it is zero. -/
inductive Over : Binary64 → Nat → Binary64 → Prop
  | last {x : Binary64} {n : Nat} : n ≤ 308 → Over x n (x / .ofNat (10 ^ n))
  | zero {x : Binary64} {n : Nat} : 308 < n → x.isZero = true → Over x n x
  | more {x y : Binary64} {n : Nat} : 308 < n → x.isZero = false → Over (x / .ofNat (10 ^ (308 : Nat))) (n - 308) y → Over x n y

inductive Scaled (m : Nat) : Int → Binary64 → Prop
  | times {e : Nat} : e ≤ 308 → (Binary64.ofNat m * .ofNat (10 ^ e)).isFinite = true →
      Scaled m e (.ofNat m * .ofNat (10 ^ e))
  | zero {e : Nat} : 308 < e → m = 0 → Scaled m e (.ofNat 0)
  | divided {e : Nat} {x : Binary64} : 0 < e → Over (.ofNat m) e x → Scaled m (-e) x

/-- A significand, with its point shifted, and the exponent that is written. From 2^31 on its digits
do not matter. -/
inductive Raised (m : Nat) (shift : Int) : Option (Bool × List Nat) → Binary64 → Prop
  | plain {x : Binary64} : Scaled m shift x → Raised m shift none x
  | up {ds : List Nat} {x : Binary64} : spelled 0 ds < UInt32.size / 2 → Scaled m (shift + spelled 0 ds) x →
      Raised m shift (some (false, ds)) x
  | down {ds : List Nat} {x : Binary64} : spelled 0 ds < UInt32.size / 2 → Scaled m (shift - spelled 0 ds) x →
      Raised m shift (some (true, ds)) x
  | zero {ds : List Nat} : UInt32.size / 2 ≤ spelled 0 ds → m = 0 → Raised m shift (some (false, ds)) (.ofNat 0)
  | tiny {ds : List Nat} : UInt32.size / 2 ≤ spelled 0 ds → Raised m shift (some (true, ds)) (.ofNat 0)

inductive Magnitude (n : Numeral) : Binary64 → Prop
  | intro {whole surplus significand unused : Nat} {x : Binary64} :
      Fits 0 n.whole whole surplus → Fits whole (n.fraction.getD []) significand unused →
      Raised significand (surplus - ((n.fraction.getD []).length - unused : Nat)) n.exponent x → Magnitude n x

inductive Denotes (n : Numeral) : Number → Prop
  | whole {i : Int} : n.Whole i → Denotes n (.whole i)
  | real {x : Binary64} : (∀ i, ¬ n.Whole i) → n.Magnitude x → Denotes n (.real (if n.negative then -x else x))

end Numeral

/-! ## Strings -/

/-- A character that is escaped: by a letter, by its code unit, or by the two surrogates of a pair. -/
inductive Escaped : Char → List Piece → List Piece → Prop
  | short {c : Char} {rest : List Piece} : Escaped c (.short c :: rest) rest
  | unit {c : Char} {u : UInt16} {rest : List Piece} : u.toNat = c.toNat → Escaped c (.unit u :: rest) rest
  | pair {c : Char} {leading trailing : UInt16} {rest : List Piece} :
      0xD800 ≤ leading.toNat → leading.toNat ≤ 0xDBFF → 0xDC00 ≤ trailing.toNat → trailing.toNat ≤ 0xDFFF →
      c.toNat = 0x10000 + (leading.toNat - 0xD800) * 0x400 + (trailing.toNat - 0xDC00) →
      Escaped c (.unit leading :: .unit trailing :: rest) rest

/-- The characters of pieces: each is escaped, or written as its bytes in UTF-8. -/
inductive Spells : List Piece → List Char → Prop
  | nil : Spells [] []
  | plain (c : Char) {ps : List Piece} {cs : List Char} :
      Spells ps cs → Spells ((String.utf8EncodeChar c).map .plain ++ ps) (c :: cs)
  | escaped {c : Char} {ps rest : List Piece} {cs : List Char} :
      Escaped c ps rest → Spells rest cs → Spells ps (c :: cs)

inductive Piece.Flaw (ps : List Piece) : Prop
  | loneSurrogate : bytes? ps = none → Flaw ps
  | notUtf8 {bytes : List UInt8} : bytes? ps = some bytes → ¬ ByteArray.IsValidUTF8 ⟨bytes.toArray⟩ → Flaw ps

/-! ## Values -/

/-- The value of a writing in which at most `depth` arrays and objects are open at once. -/
inductive Writing.Denotes : Nat → Writing → Json → Prop
  | null {depth : Nat} : Denotes depth .null .null
  | bool {depth : Nat} {b : Bool} : Denotes depth (.bool b) (.bool b)
  | number {depth : Nat} {n : Numeral} {x : Number} : n.Denotes x → Denotes depth (.number n) (.number x)
  | text {depth : Nat} {ps : List Piece} {t : String} : Spells ps t.toList → Denotes depth (.text ps) (.text t)
  | array {depth : Nat} {items : List Writing} {values : List Json} : items.length = values.length →
      (∀ item ∈ items.zip values, Denotes depth item.1 item.2) → Denotes (depth + 1) (.array items) (.array values)
  | object {depth : Nat} {written : List (List Piece × Writing)} {members : List (String × Json)} :
      written.length = members.length → (∀ member ∈ written.zip members, Spells member.1.1 member.2.1.toList) →
      (∀ member ∈ written.zip members, Denotes depth member.1.2 member.2.2) →
      Denotes (depth + 1) (.object written) (.object members)

inductive Flaw : Nat → Writing → Prop
  | outOfRange {depth : Nat} {n : Numeral} : (∀ x, ¬ n.Denotes x) → Flaw depth (.number n)
  | text {depth : Nat} {ps : List Piece} : Piece.Flaw ps → Flaw depth (.text ps)
  | deepArray {items : List Writing} : Flaw 0 (.array items)
  | deepObject {members : List (List Piece × Writing)} : Flaw 0 (.object members)
  | item {depth : Nat} {items : List Writing} {w : Writing} : w ∈ items → Flaw depth w → Flaw (depth + 1) (.array items)
  | name {depth : Nat} {members : List (List Piece × Writing)} {member : List Piece × Writing} :
      member ∈ members → Piece.Flaw member.1 → Flaw (depth + 1) (.object members)
  | member {depth : Nat} {members : List (List Piece × Writing)} {member : List Piece × Writing} :
      member ∈ members → Flaw depth member.2 → Flaw (depth + 1) (.object members)

/-- The bytes are a JSON text of this value, with blanks around it if they like. At most 127 arrays and
objects are open at once. -/
def IsText (input : List UInt8) (value : Json) : Prop :=
  ∃ w rest, Writing.Written w input rest ∧ Blanks rest [] ∧ w.Denotes 127 value

end Calculator.Json
