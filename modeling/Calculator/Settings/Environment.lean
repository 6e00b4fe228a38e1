/-
  Calculator.Settings.Environment — the settings that environment variables give.

  A variable counts if its name starts with `CALC_`, in letters of any case. The rest of the
  name, in small letters, is the key; points in it nest, and a key with nothing between two
  points, or no key at all, does not count. The value, without white space around it, is
  - `true` or `false`,
  - a character between single quotes or a string between double ones,
  - values in `[ ]`, or entries `key = value` in `{ }`, with commas between them,
  - or else what stands before the next separator: a number with a point if it spells a
    decimal, a whole number if it fits 64 bits, and text.
  If that is not the whole value, the value is text as it stands.
-/

import Calculator.Settings.Literal
import Calculator.Settings.Value
import Calculator.Text.Blank

namespace Calculator.Settings.Environment

def isSpace (c : Char) : Bool := c == ' ' || c == '\t' || c == '\n' || c == '\x0c' || c == '\r'

def skipSpaces (s : List Char) : List Char := s.dropWhile isSpace

/-- The text without characters of a kind at its ends. -/
def trim (drop : Char → Bool) (s : List Char) : List Char :=
  ((s.dropWhile drop).reverse.dropWhile drop).reverse

/-- What ends a value without quotes. -/
def isSeparator (c : Char) : Bool := [',', '{', '}', '[', ']'].contains c

/-- The text behind `word`, if it stands in front. -/
def behind? (word s : List Char) : Option (List Char) :=
  if word.isPrefixOf s then some (s.drop word.length) else none

/-! ## Strings -/

/-- The first `n` characters as a hexadecimal code point. -/
def codePoint? (n : Nat) (s : List Char) : Option (Char × List Char) := do
  let digits := s.take n
  guard (digits.length = n)
  let code ← Literal.natural? 16 digits
  guard (code.isValidChar)
  return (Char.ofNat code, s.drop n)

/-- What an escape stands for, behind its backslash. -/
def escape? : List Char → Option (Char × List Char)
  | 'b' :: s => some ('\x08', s)
  | 't' :: s => some ('\t', s)
  | 'n' :: s => some ('\n', s)
  | 'f' :: s => some ('\x0c', s)
  | 'r' :: s => some ('\r', s)
  | '"' :: s => some ('"', s)
  | '\\' :: s => some ('\\', s)
  | 'u' :: s => codePoint? 4 s
  | 'U' :: s => codePoint? 8 s
  | _ => none

def isPlain (c : Char) : Bool := c == '\t' || (0x20 ≤ c.toNat && c.toNat != 0x7f)

/-- The string up to the closing quote, behind `done`, last character first. -/
def quoted? (fuel : Nat) (done : List Char) (s : List Char) : Option (String × List Char) :=
  match fuel, s with
  | fuel + 1, c :: rest =>
    if c = '"' then some (.ofList done.reverse, rest)
    else if c = '\\' then do
      let (c, rest) ← escape? rest
      quoted? fuel (c :: done) rest
    else if isPlain c then quoted? fuel (c :: done) rest
    else none
  | _, _ => none

/-! ## Values -/

/-- The value of a text without quotes and brackets. -/
def bare (s : List Char) : Value :=
  if s.contains '.' && Literal.isDecimal s then .number (.ofList s)
  else if Literal.isWord 64 s then .number (.ofList s)
  else .text (.ofList s)

/-- Items up to `close`, with commas between them; a comma may also follow the last. -/
def items? {α : Type} (fuel : Nat) (item : List Char → Option (α × List Char)) (close : Char) (s : List Char) :
    Option (List α × List Char) :=
  match fuel with
  | 0 => none
  | fuel + 1 =>
    if s.head? = some close then some ([], s.drop 1)
    else do
      let (first, rest) ← item s
      match rest with
      | c :: rest =>
        if c = ',' then
          let (more, rest) ← items? fuel item close rest
          return (first :: more, rest)
        else if c = close then return ([first], rest)
        else none
      | [] => none

def isKeyEnd (c : Char) : Bool := isSeparator c || c == '='

def keyText? : List Char → Option (String × List Char)
  | '"' :: rest => quoted? rest.length [] rest
  | s =>
    let key := trim isSpace (s.takeWhile (!isKeyEnd ·))
    if key.isEmpty then none else some (.ofList key, s.dropWhile (!isKeyEnd ·))

def key? (s : List Char) : Option (String × List Char) := do
  let (key, rest) ← keyText? (skipSpaces s)
  let rest ← behind? ['='] (skipSpaces rest)
  return (key, rest)

def keyed? (value? : List Char → Option (Value × List Char)) (s : List Char) : Option ((String × Value) × List Char) := do
  let (key, rest) ← key? s
  let (value, rest) ← value? rest
  return ((key, value), rest)

/-- A value at the front; `value?` reads what stands in brackets. -/
def form? (value? : List Char → Option (Value × List Char)) (s : List Char) : Option (Value × List Char) :=
  if let some rest := behind? "true".toList s then some (.bool true, rest)
  else if let some rest := behind? "false".toList s then some (.bool false, rest)
  else match s with
    | '{' :: rest => (items? (rest.length + 1) (keyed? value?) '}' rest).map fun (entries, rest) => (.dict entries, rest)
    | '[' :: rest => (items? (rest.length + 1) value? ']' rest).map fun (items, rest) => (.list items, rest)
    | '"' :: rest => (quoted? rest.length [] rest).map fun (text, rest) => (.text text, rest)
    | '\x27' :: c :: '\x27' :: rest => some (.text c.toString, rest)
    | '\x27' :: _ => none
    | _ => some (bare (trim isBlank (s.takeWhile (!isSeparator ·))), s.dropWhile (!isSeparator ·))

/-- A value at the front with spaces around it, and with fewer than `fuel` brackets. -/
def value? (fuel : Nat) (s : List Char) : Option (Value × List Char) :=
  match fuel with
  | 0 => none
  | fuel + 1 => (form? (value? fuel) (skipSpaces s)).map fun (value, rest) => (value, skipSpaces rest)

def value (text : String) : Value :=
  let s := trim isBlank text.toList
  match value? (s.length + 1) s with
  | some (value, []) => value
  | _ => .text (.ofList s)

/-! ## Names -/

def keyPath? (name : String) : Option (List String) := do
  let key ← behind? "calc_".toList (name.toList.map Char.toLower)
  let path := key.splitOn '.'
  if path.contains [] then none else some (path.map String.ofList)

def nest (value : Value) : List String → Value
  | [] => value
  | key :: path => .dict [(key, nest value path)]

/-- The entry a variable gives, if it counts. -/
def entry? (name text : String) : Option (String × Value) := do
  match ← keyPath? name with
  | key :: path => return (key, nest (value text) path)
  | [] => none

/-- The settings of variables, given as names with values; the last one of a key counts. -/
def dict (environment : List (String × String)) : Dict := environment.filterMap fun (name, text) => entry? name text

end Calculator.Settings.Environment
