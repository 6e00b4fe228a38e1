/-
  Calculator.Json.Writing — values as they are written.

  A `Writing` keeps of a text what its value depends on: the digits of its numbers, the pieces of
  its strings, items and members in their order. Blanks, the case of hexadecimal digits and of an
  exponent's letter are forgotten. `Written` is the grammar: it says which bytes are which writing.
  It asks nothing of the size of numbers, nor that strings can be read. What value a writing has is
  told in `Denotation`.

  `Writing.make` is what a `Scheme` makes of a writing; with reading that is the writing's value.
-/

import Calculator.Json.Value

namespace Calculator.Json

/-! ## Blanks and lists

The relations below hold between a part, the input it starts, and what is left of the input
behind it. -/

inductive Blanks : List UInt8 → List UInt8 → Prop
  | nil {rest : List UInt8} : Blanks rest rest
  | cons {b : UInt8} {input rest : List UInt8} :
      (Char.ofUInt8 b).isWhitespace → Blanks input rest → Blanks (b :: input) rest

section

variable {ω : Type}

/-- Items with a comma between them, and the character that closes them. -/
inductive Series (item : ω → List UInt8 → List UInt8 → Prop) (close : Char) :
    List ω → List UInt8 → List UInt8 → Prop
  | last {x : ω} {input behind rest : List UInt8} :
      item x input behind → Blanks behind (close.toUInt8 :: rest) → Series item close [x] input rest
  | more {x : ω} {xs : List ω} {input behind next rest : List UInt8} :
      item x input behind → Blanks behind (','.toUInt8 :: next) → Series item close xs next rest →
      Series item close (x :: xs) input rest

/-- The inside of an array or object: no items at all, or a series of them. -/
inductive Inside (item : ω → List UInt8 → List UInt8 → Prop) (close : Char) :
    List ω → List UInt8 → List UInt8 → Prop
  | empty {input rest : List UInt8} : Blanks input (close.toUInt8 :: rest) → Inside item close [] input rest
  | series {xs : List ω} {input rest : List UInt8} : Series item close xs input rest → Inside item close xs input rest

end

/-! ## Numbers -/

namespace Numeral

/-- Digits, the most significant first. -/
inductive Digits : List Nat → List UInt8 → List UInt8 → Prop
  | nil {rest : List UInt8} : Digits [] rest rest
  | cons {d : Nat} {ds : List Nat} {b : UInt8} {input rest : List UInt8} :
      d < 10 → b.toNat = '0'.toNat + d → Digits ds input rest → Digits (d :: ds) (b :: input) rest

/-- A point and at least one digit, or nothing. -/
inductive Fraction : Option (List Nat) → List UInt8 → List UInt8 → Prop
  | none {rest : List UInt8} : Fraction none rest rest
  | some {ds : List Nat} {input rest : List UInt8} :
      ds ≠ [] → Digits ds input rest → Fraction (some ds) ('.'.toUInt8 :: input) rest

/-- The letter, a sign if it likes and at least one digit, or nothing. -/
inductive Exponent : Option (Bool × List Nat) → List UInt8 → List UInt8 → Prop
  | none {rest : List UInt8} : Exponent none rest rest
  | unsigned {e : Char} {ds : List Nat} {input rest : List UInt8} : e = 'e' ∨ e = 'E' →
      ds ≠ [] → Digits ds input rest → Exponent (some (false, ds)) (e.toUInt8 :: input) rest
  | positive {e : Char} {ds : List Nat} {input rest : List UInt8} : e = 'e' ∨ e = 'E' →
      ds ≠ [] → Digits ds input rest → Exponent (some (false, ds)) (e.toUInt8 :: '+'.toUInt8 :: input) rest
  | negative {e : Char} {ds : List Nat} {input rest : List UInt8} : e = 'e' ∨ e = 'E' →
      ds ≠ [] → Digits ds input rest → Exponent (some (true, ds)) (e.toUInt8 :: '-'.toUInt8 :: input) rest

/-- A number: a minus if it is negative, digits that start with a zero only if that is all of
them, and the two parts that may be missing. -/
inductive Written : Numeral → List UInt8 → List UInt8 → Prop
  | intro {n : Numeral} {input behindWhole behindFraction rest : List UInt8} :
      n.whole ≠ [] → (n.whole.head? = some 0 → n.whole = [0]) → Digits n.whole input behindWhole →
      Fraction n.fraction behindWhole behindFraction → Exponent n.exponent behindFraction rest →
      Written n ((if n.negative then ['-'.toUInt8] else []) ++ input) rest

end Numeral

/-! ## Strings -/

inductive Piece where
  /-- A byte that stands for itself. -/
  | plain (b : UInt8)
  /-- A character, written as a backslash and a letter. -/
  | short (c : Char)
  /-- A code unit, written as `\u` and four hexadecimal digits. -/
  | unit (u : UInt16)
  deriving DecidableEq, Repr

/-- The letter behind a backslash, and the character they stand for. -/
inductive ShortEscape : Char → Char → Prop
  | quote : ShortEscape '"' '"'
  | backslash : ShortEscape '\\' '\\'
  | slash : ShortEscape '/' '/'
  | backspace : ShortEscape 'b' '\x08'
  | formFeed : ShortEscape 'f' '\x0c'
  | lineFeed : ShortEscape 'n' '\n'
  | carriageReturn : ShortEscape 'r' '\r'
  | tab : ShortEscape 't' '\t'

def HexDigit (b : UInt8) (v : Nat) : Prop :=
  v < 16 ∧ (Char.ofUInt8 b = v.digitChar ∨ Char.ofUInt8 b = v.digitChar.toUpper)

inductive CodeUnit : UInt16 → List UInt8 → List UInt8 → Prop
  | intro {u : UInt16} {b₁ b₂ b₃ b₄ : UInt8} {v₁ v₂ v₃ v₄ : Nat} {rest : List UInt8} :
      HexDigit b₁ v₁ → HexDigit b₂ v₂ → HexDigit b₃ v₃ → HexDigit b₄ v₄ →
      u.toNat = ((v₁ * 16 + v₂) * 16 + v₃) * 16 + v₄ → CodeUnit u (b₁ :: b₂ :: b₃ :: b₄ :: rest) rest

/-- Pieces and the closing quote. -/
inductive Pieces : List Piece → List UInt8 → List UInt8 → Prop
  | nil {rest : List UInt8} : Pieces [] ('"'.toUInt8 :: rest) rest
  | plain {b : UInt8} {ps : List Piece} {input rest : List UInt8} :
      0x20 ≤ b → b ≠ '"'.toUInt8 → b ≠ '\\'.toUInt8 → Pieces ps input rest → Pieces (.plain b :: ps) (b :: input) rest
  | short {b : UInt8} {c : Char} {ps : List Piece} {input rest : List UInt8} :
      ShortEscape (Char.ofUInt8 b) c → Pieces ps input rest →
      Pieces (.short c :: ps) ('\\'.toUInt8 :: b :: input) rest
  | unit {u : UInt16} {ps : List Piece} {input behind rest : List UInt8} :
      CodeUnit u input behind → Pieces ps behind rest → Pieces (.unit u :: ps) ('\\'.toUInt8 :: 'u'.toUInt8 :: input) rest

namespace Piece

/-- The bytes of pieces, unless a surrogate stands alone. -/
def bytes? : List Piece → Option (List UInt8)
  | [] => some []
  | plain b :: ps => (bytes? ps).map (b :: ·)
  | short c :: ps => (bytes? ps).map (String.utf8EncodeChar c ++ ·)
  | unit u :: ps =>
    if isTrailingSurrogate u.toNat then none
    else if isLeadingSurrogate u.toNat then
      match ps with
      | unit v :: ps =>
        if isTrailingSurrogate v.toNat then (bytes? ps).map (String.utf8EncodeChar (pairChar u.toNat v.toNat) ++ ·) else none
      | _ => none
    else (bytes? ps).map (String.utf8EncodeChar (Char.ofNat u.toNat) ++ ·)

def text? (ps : List Piece) : Option String := (bytes? ps).bind fun bytes => String.fromUTF8? ⟨bytes.toArray⟩

end Piece

/-! ## Values -/

inductive Writing where
  | null
  | bool (b : Bool)
  | number (n : Numeral)
  | text (ps : List Piece)
  | array (items : List Writing)
  | object (members : List (List Piece × Writing))

/-- A member: its name in quotes, a colon and its value. -/
inductive Member (value : Writing → List UInt8 → List UInt8 → Prop) :
    List Piece × Writing → List UInt8 → List UInt8 → Prop
  | intro {ps : List Piece} {w : Writing} {input name behindName input' rest : List UInt8} :
      Blanks input ('"'.toUInt8 :: name) → Pieces ps name behindName → Blanks behindName (':'.toUInt8 :: input') →
      value w input' rest → Member value (ps, w) input rest

def word (chars : List Char) : List UInt8 := chars.map Char.toUInt8

/-- A value, with blanks in front of it. -/
inductive Writing.Written : Writing → List UInt8 → List UInt8 → Prop
  | null {input rest : List UInt8} : Blanks input (word ['n', 'u', 'l', 'l'] ++ rest) → Written .null input rest
  | yes {input rest : List UInt8} : Blanks input (word ['t', 'r', 'u', 'e'] ++ rest) → Written (.bool true) input rest
  | no {input rest : List UInt8} : Blanks input (word ['f', 'a', 'l', 's', 'e'] ++ rest) → Written (.bool false) input rest
  | number {n : Numeral} {input start rest : List UInt8} :
      Blanks input start → n.Written start rest → Written (.number n) input rest
  | text {ps : List Piece} {input start rest : List UInt8} :
      Blanks input ('"'.toUInt8 :: start) → Pieces ps start rest → Written (.text ps) input rest
  | array {items : List Writing} {input start rest : List UInt8} :
      Blanks input ('['.toUInt8 :: start) → Inside Written ']' items start rest → Written (.array items) input rest
  | object {members : List (List Piece × Writing)} {input start rest : List UInt8} :
      Blanks input ('\x7b'.toUInt8 :: start) → Inside (Member Written) '\x7d' members start rest →
      Written (.object members) input rest

/-- What is made of the numbers, strings and names of a writing. -/
structure Sense (α : Type) where
  number : Numeral → Except Fault α
  text : List Piece → Except Fault α
  name : List Piece → Except Fault String

def orIllFormed {α : Type} : Option α → Except Fault α
  | some x => .ok x
  | none => .error .illFormed

def Sense.building : Sense Json where
  number n := (orIllFormed n.value?).map .number
  text ps := (orIllFormed (Piece.text? ps)).map .text
  name ps := orIllFormed (Piece.text? ps)

def Sense.skipping : Sense Unit where
  number _ := .ok ()
  text _ := .ok ()
  name _ := .ok ""

namespace Writing

variable {α : Type}

def makeMember (m : Sense α) (make : Writing → Except Fault α) (member : List Piece × Writing) :
    Except Fault (String × α) := do
  return (← m.name member.1, ← make member.2)

/-- What a scheme makes of a writing in which at most `depth` arrays and objects are open at once. -/
def make (s : Scheme α) (m : Sense α) : Nat → Writing → Except Fault α
  | _, null => .ok s.null
  | _, bool b => .ok (s.bool b)
  | _, number n => m.number n
  | _, text ps => m.text ps
  | 0, array _ | 0, object _ => .error .illFormed
  | depth + 1, array items => (items.mapM (make s m depth)).map s.array
  | depth + 1, object members => (members.mapM (makeMember m (make s m depth))).map s.object

def value (depth : Nat) (w : Writing) : Except Fault Json := w.make .building .building depth

end Writing

end Calculator.Json
