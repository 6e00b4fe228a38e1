/-
  Calculator.Json.Value — whole values, read into `Json` or only passed over.

  One walk over the text serves both; a `Scheme` says what it makes of the parts. Reading
  nests at most 127 arrays and objects. Passing over has no such limit, and of strings and
  numbers it asks only that they can be told from what follows.
-/

import Calculator.Json.Number
import Calculator.Json.Text

namespace Calculator.Json

/-- What a walk over a value makes of its parts. -/
structure Scheme (α : Type) where
  null : α
  bool : Bool → α
  number : Reader α
  /-- A string, behind its opening quote. -/
  text : Reader α
  /-- A member's name, behind its opening quote. -/
  name : Reader String
  array : List α → α
  object : List (String × α) → α

def Reader.inQuotes {α : Type} (r : Reader α) : Reader α := (Reader.mark '"').bind fun _ => r

namespace Scheme

variable {α : Type}

def member (s : Scheme α) (value : Reader α) : Reader (String × α) :=
  s.name.inQuotes.bind fun name => (Reader.mark ':').bind fun _ => value.map (name, ·)

/-- A value whose first byte, `b`, is read. Where no array or object may be opened there is
no `nested`. -/
def behind (s : Scheme α) (nested : Option (Unit → Reader α)) (b : UInt8) (rest : List UInt8) :
    Except Fault (α × List UInt8) :=
  match Char.ofUInt8 b with
  | 'n' => (expect ['u', 'l', 'l'] rest).map (s.null, ·)
  | 't' => (expect ['r', 'u', 'e'] rest).map (s.bool true, ·)
  | 'f' => (expect ['a', 'l', 's', 'e'] rest).map (s.bool false, ·)
  | '"' => s.text.read rest
  | '[' =>
    match nested with
    | some nested => ((Reader.listInside (nested ()) ']').map s.array).read rest
    | none => .error .illFormed
  | '{' =>
    match nested with
    | some nested => ((Reader.listInside (s.member (nested ())) '}').map s.object).read rest
    | none => .error .illFormed
  | c => if c = '-' ∨ c.isDigit then s.number.read (b :: rest) else .error .illFormed

theorem length_behind_lt {s : Scheme α} {nested : Option (Unit → Reader α)} {b : UInt8} {rest rest' : List UInt8}
    {value : α} (h : s.behind nested b rest = .ok (value, rest')) : rest'.length < rest.length + 1 := by
  have word {w : List Char} {v : α} (h : (expect w rest).map (v, ·) = .ok (value, rest')) :
      rest'.length < rest.length + 1 := by
    cases he : expect w rest with
    | error => rw [he] at h; cases h
    | ok r => rw [he] at h; cases h; exact Nat.lt_succ_of_le (length_expect_le he)
  unfold behind at h
  split at h
  · exact word h
  · exact word h
  · exact word h
  · exact Nat.lt_succ_of_lt (s.text.shorter h)
  · split at h
    · exact Nat.lt_succ_of_lt (((Reader.listInside _ _).map _).shorter h)
    · cases h
  · split at h
    · exact Nat.lt_succ_of_lt (((Reader.listInside _ _).map _).shorter h)
    · cases h
  · split at h
    · exact s.number.shorter h
    · cases h

def valueWith (s : Scheme α) (nested : Option (Unit → Reader α)) : Reader α where
  read input :=
    match skipBlanks input with
    | [] => .error .truncated
    | b :: rest => s.behind nested b rest
  shorter := by
    intro input value rest h
    have := length_skipBlanks_le input
    split at h
    · cases h
    · next heq =>
      rw [heq] at this
      exact Nat.lt_of_lt_of_le (length_behind_lt h) this

/-- A value in which at most `depth` arrays and objects are open at once. -/
def value (s : Scheme α) : Nat → Reader α
  | 0 => s.valueWith none
  | depth + 1 => s.valueWith (some fun _ => s.value depth)

end Scheme

def Scheme.building : Scheme Json where
  null := .null
  bool := .bool
  number := Number.reader.map .number
  text := quoted.map .text
  name := quoted
  array := .array
  object := .object

/-- Passing over values. Names do not matter either. -/
def Scheme.skipping : Scheme Unit where
  null := ()
  bool _ := ()
  number := Number.skipper
  text := skipQuoted
  name := skipQuoted.map fun _ => ""
  array _ := ()
  object _ := ()

def nestingLimit : Nat := 127

/-- Takes a value off the front and asks for nothing but blanks behind it. -/
def Reader.whole {α : Type} (r : Reader α) (input : List UInt8) : Except Fault α :=
  match r.read input with
  | .error e => .error e
  | .ok (value, rest) => if (skipBlanks rest).isEmpty then .ok value else .error .illFormed

def ofBytes (input : List UInt8) : Except Fault Json := (Scheme.building.value nestingLimit).whole input

end Calculator.Json
