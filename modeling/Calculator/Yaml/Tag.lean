/-
  Calculator.Yaml.Tag — tags, in full and in short, and the directives that come before a document.

  A tag stands in full between `!<` and `>`, or it is a shorthand with a suffix. The shorthands
  are `!!`, `!name!` and, where neither of these is written, `!`. What they stand for is
  declared by directives; undeclared, `!` stands for itself and `!!` for the standard tags,
  and no other shorthand may be used. A `!` without suffix is a tag and no shorthand.

  Tags are made of letters, digits and some marks. Any other character is spelled as the octets
  of its UTF-8 form, each of them a percent sign and two hexadecimal digits.
-/

import Calculator.Settings.Literal
import Calculator.Yaml

namespace Calculator.Yaml

def isBreak (c : Char) : Bool := c == '\n' || c == '\u2028' || c == '\u2029'

def isSpaceOrTab (c : Char) : Bool := c == ' ' || c == '\t'

/-- The text starts with a space, a tab or a line break, or it is at its end. -/
def endsToken : List Char → Bool
  | [] => true
  | c :: _ => isSpaceOrTab c || isBreak c

def isNameChar (c : Char) : Bool := c.isAlphanum || c == '_' || c == '-'

/-! ## Spelling -/

/-- What tags are made of; some marks of collections may stand only in tags in full. -/
def isTagChar (full : Bool) (c : Char) : Bool :=
  isNameChar c || [';', '/', '?', ':', '@', '&', '=', '+', '$', '.', '!', '~', '*', '\x27', '(', ')', '%'].contains c
    || (full && [',', '[', ']'].contains c)

/-- How many octets follow the first octet of a character. -/
def octetsAfter? (first : Nat) : Option Nat :=
  if first < 0x80 then some 0
  else if first / 0x20 = 6 then some 1
  else if first / 0x10 = 14 then some 2
  else if first / 8 = 30 then some 3
  else none

/-- The octets of a spelling, in which `due` more of them belong to a character begun before. -/
def octets? (due : Nat) : List Char → Option (List UInt8)
  | '%' :: a :: b :: rest => do
    let n ← Settings.Literal.natural? 16 [a, b]
    let due ← if due = 0 then octetsAfter? n else if n / 0x40 = 2 then some (due - 1) else none
    return .ofNat n :: (← octets? due rest)
  | c :: rest =>
    if due = 0 ∧ c ≠ '%' then (octets? 0 rest).map (String.utf8EncodeChar c ++ ·) else none
  | [] => if due = 0 then some [] else none

def spelled? (written : List Char) : Option String := do
  String.fromUTF8? ⟨(← octets? 0 written).toArray⟩

/-! ## Shorthands -/

abbrev Shorthands := List (String × String)

/-- What shorthands stand for that no directive declares. -/
def Shorthands.standard : Shorthands := [("!", "!"), ("!!", "tag:yaml.org,2002:")]

/-- The shorthand at the front, other than `!`. -/
def shorthand? (s : List Char) : Option (String × List Char) :=
  match s with
  | '!' :: rest =>
    match rest.dropWhile isNameChar with
    | '!' :: after => some (.ofList ('!' :: rest.takeWhile isNameChar ++ ['!']), after)
    | _ => none
  | _ => none

def tag? (declared : Shorthands) (s : List Char) : Option (Tag × List Char) :=
  match s with
  | '!' :: '<' :: rest =>
    match rest.takeWhile (isTagChar true), rest.dropWhile (isTagChar true) with
    | c :: written, '>' :: after => (spelled? (c :: written)).map (·, after)
    | _, _ => none
  | '!' :: rest => do
    let (shorthand, suffixed) := (shorthand? s).getD ("!", rest)
    let written := suffixed.takeWhile (isTagChar false)
    let after := suffixed.dropWhile (isTagChar false)
    if written.isEmpty then
      guard (shorthand = "!")
      return ("!", after)
    return ((← (declared ++ .standard).lookup shorthand) ++ (← spelled? written), after)
  | _ => none

/-! ## Directives -/

structure Directives where
  /-- The version is told. -/
  versioned : Bool
  shorthands : Shorthands
  deriving DecidableEq, Repr

namespace Directives

def none : Directives := ⟨false, []⟩

def isNone (ds : Directives) : Bool := !ds.versioned && ds.shorthands.isEmpty

def number? (s : List Char) : Option (Nat × List Char) := do
  let digits := s.takeWhile Char.isDigit
  guard (!digits.isEmpty && digits.length ≤ 9)
  return (Nat.ofDigitChars 10 digits 0, s.dropWhile Char.isDigit)

/-- The version is told once, and is 1.1 or 1.2. -/
def version? (ds : Directives) (s : List Char) : Option (Directives × List Char) := do
  let (major, s) ← number? s
  guard (s.head? == some '.')
  let (minor, s) ← number? (s.drop 1)
  guard (!ds.versioned && major == 1 && (minor == 1 || minor == 2))
  return ({ ds with versioned := true }, s)

def declaration? (ds : Directives) (s : List Char) : Option (Directives × List Char) := do
  let (shorthand, s) ← (shorthand? s).or (if s.head? == some '!' then some ("!", s.drop 1) else .none)
  guard (s.head?.any isSpaceOrTab)
  let s := s.dropWhile isSpaceOrTab
  let written := s.takeWhile (isTagChar true)
  let s := s.dropWhile (isTagChar true)
  guard (!written.isEmpty && endsToken s && (ds.shorthands.lookup shorthand).isNone)
  return ({ ds with shorthands := (shorthand, ← spelled? written) :: ds.shorthands }, s)

/-- Adds the directive of a line, the percent sign in front of which is read already. A comment
may follow. -/
def read? (ds : Directives) (line : List Char) : Option Directives := do
  let rest := line.dropWhile isNameChar
  guard (endsToken rest)
  let s := rest.dropWhile isSpaceOrTab
  let (ds, s) ← match String.ofList (line.takeWhile isNameChar) with
    | "YAML" => ds.version? s
    | "TAG" => ds.declaration? s
    | _ => .none
  let s := s.dropWhile isSpaceOrTab
  guard (s.isEmpty || s.head? == some '#')
  return ds

end Directives

end Calculator.Yaml
