/-
  Calculator.Settings.Spelling — what variables say, by the rules.

  `Says` is the grammar of variables, without a reader: which names count, which key they name, and which value a
  text spells. In brackets stand items, and those are values again: `Items` and `Form` take the spelling of what is
  inside as a parameter. What is neither quoted nor in brackets goes on up to a separator, and is a number or text.
-/

import Calculator.Text.Blank
import Calculator.Settings.Value

namespace Calculator.Settings.Environment

/-! ## Numbers -/

inductive Sign : List Char → Prop
  | none : Sign []
  | plus : Sign ['+']
  | minus : Sign ['-']

inductive Exponent : List Char → Prop
  | none : Exponent []
  | some {mark : Char} {sign digits : List Char} : mark = 'e' ∨ mark = 'E' → Sign sign → digits ≠ [] →
      (∀ c ∈ digits, c.isDigit) → Exponent (mark :: (sign ++ digits))

inductive Pointed : List Char → Prop
  | intro {sign whole fraction exponent : List Char} : Sign sign → whole ++ fraction ≠ [] →
      (∀ c ∈ whole ++ fraction, c.isDigit) → Exponent exponent → Pointed (sign ++ whole ++ '.' :: fraction ++ exponent)

inductive Word : List Char → Prop
  | natural {sign digits : List Char} : Sign sign → sign ≠ ['-'] → digits ≠ [] → (∀ c ∈ digits, c.isDigit) →
      Nat.ofDigitChars 10 digits 0 < UInt64.size → Word (sign ++ digits)
  | negative {digits : List Char} : digits ≠ [] → (∀ c ∈ digits, c.isDigit) →
      Nat.ofDigitChars 10 digits 0 ≤ UInt64.size / 2 → Word ('-' :: digits)

/-- The value of a run without quotes and brackets. -/
inductive Bare (s : List Char) : Value → Prop
  | number : Pointed s ∨ Word s → Bare s (.number (.ofList s))
  | text : ¬ Pointed s → ¬ Word s → Bare s (.text (.ofList s))

/-! ## Strings -/

/-- The number that hexadecimal digits of either case make up behind a number. -/
inductive Hexadecimal : Nat → List Char → Nat → Prop
  | nil {m : Nat} : Hexadecimal m [] m
  | lower {s : List Char} {m n v : Nat} : v < 16 → Hexadecimal (m * 16 + v) s n → Hexadecimal m (v.digitChar :: s) n
  | upper {s : List Char} {m n v : Nat} : v < 16 → Hexadecimal (m * 16 + v) s n → Hexadecimal m (v.digitChar.toUpper :: s) n

/-- What stands behind the backslash of an escape, and the character it makes. -/
inductive Escape : List Char → Char → Prop
  | backspace : Escape ['b'] '\x08'
  | tab : Escape ['t'] '\t'
  | newline : Escape ['n'] '\n'
  | formFeed : Escape ['f'] '\x0c'
  | carriageReturn : Escape ['r'] '\r'
  | quote : Escape ['"'] '"'
  | backslash : Escape ['\\'] '\\'
  | short {digits : List Char} {n : Nat} : digits.length = 4 → Hexadecimal 0 digits n → n.isValidChar →
      Escape ('u' :: digits) (.ofNat n)
  | long {digits : List Char} {n : Nat} : digits.length = 8 → Hexadecimal 0 digits n → n.isValidChar →
      Escape ('U' :: digits) (.ofNat n)

/-- What stands between double quotes, and the text it makes. -/
inductive Quoted : List Char → List Char → Prop
  | nil : Quoted [] []
  | plain {c : Char} {s text : List Char} : c ≠ '"' → c ≠ '\\' → c = '\t' ∨ 0x20 ≤ c.toNat ∧ c.toNat ≠ 0x7f →
      Quoted s text → Quoted (c :: s) (c :: text)
  | escape {c : Char} {e s text : List Char} : Escape e c → Quoted s text → Quoted ('\\' :: (e ++ s)) (c :: text)

/-! ## Values -/

def IsSpace (c : Char) : Prop := c ∈ [' ', '\t', '\n', '\x0c', '\r']

def IsSeparator (c : Char) : Prop := c ∈ [',', '{', '}', '[', ']']

/-- What is left of a text without some characters at its ends. -/
def IsTrimmed (drop : Char → Prop) (s core : List Char) : Prop :=
  ∃ front back, s = front ++ core ++ back ∧ (∀ c ∈ front ++ back, drop c) ∧ (∀ c ∈ core.head?, ¬ drop c) ∧
    ∀ c ∈ core.getLast?, ¬ drop c

/-- Items with commas between them, up to the bracket that closes them. Before it the last item may have a comma. -/
inductive Items {α : Type} (Item : List Char → α → Prop) (close : Char) : List Char → List α → Prop
  | nil : Items Item close [close] []
  | last {s : List Char} {x : α} : Item s x → s ≠ [] → Items Item close (s ++ [close]) [x]
  | cons {s rest : List Char} {x : α} {xs : List α} : Item s x → Items Item close rest xs →
      Items Item close (s ++ ',' :: rest) (x :: xs)

inductive Key : List Char → String → Prop
  | quoted {front s text back : List Char} : (∀ c ∈ front ++ back, IsSpace c) → Quoted s text →
      Key (front ++ '"' :: s ++ '"' :: back) (.ofList text)
  | bare {s key : List Char} : (∀ c ∈ s, ¬ IsSeparator c ∧ c ≠ '=') → IsTrimmed IsSpace s key → key ≠ [] →
      key.head? ≠ some '"' → Key s (.ofList key)

/-- An entry of a dictionary, of which `Spelled` tells how values are spelled. -/
inductive Keyed (Spelled : List Char → Value → Prop) : List Char → String × Value → Prop
  | intro {k s : List Char} {key : String} {v : Value} : Key k key → Spelled s v → Keyed Spelled (k ++ '=' :: s) (key, v)

/-- A value that tells where it ends. -/
inductive Form (Spelled : List Char → Value → Prop) : List Char → Value → Prop
  | yes : Form Spelled "true".toList (.bool true)
  | no : Form Spelled "false".toList (.bool false)
  | quoted {s text : List Char} : Quoted s text → Form Spelled ('"' :: s ++ ['"']) (.text (.ofList text))
  | char {c : Char} : Form Spelled ['\x27', c, '\x27'] (.text c.toString)
  | list {s : List Char} {items : List Value} : Items Spelled ']' s items → Form Spelled ('[' :: s) (.list items)
  | dict {s : List Char} {entries : Dict} : Items (Keyed Spelled) '}' s entries → Form Spelled ('{' :: s) (.dict entries)

/-- No other value starts like this text. -/
def StartsBare (s : List Char) : Prop :=
  ¬ "true".toList <+: s ∧ ¬ "false".toList <+: s ∧ ∀ c ∈ s.head?, ¬ IsSpace c ∧ c ≠ '"' ∧ c ≠ '\x27'

/-- How a value is spelled, with space around it. -/
inductive Spells : List Char → Value → Prop
  | form {front s back : List Char} {v : Value} : (∀ c ∈ front ++ back, IsSpace c) → Form Spells s v →
      Spells (front ++ s ++ back) v
  | bare {front s core : List Char} {v : Value} : (∀ c ∈ front, IsSpace c) → StartsBare s → (∀ c ∈ s, ¬ IsSeparator c) →
      IsTrimmed (isBlank ·) s core → Bare core v → Spells (front ++ s) v

/-- The value a text stands for: the one it spells, and itself if it spells none. -/
inductive Means (text : String) : Value → Prop
  | spelled {s : List Char} {v : Value} : IsTrimmed (isBlank ·) text.toList s → Spells s v → Means text v
  | plain {s : List Char} : IsTrimmed (isBlank ·) text.toList s → (∀ v, ¬ Spells s v) → Means text (.text (.ofList s))

/-! ## Variables -/

/-- The name, in letters of any case, is `CALC_` and a key, and behind points the keys that lead further down. -/
structure Names (name key : String) (path : List String) : Prop where
  spelling : name.toLower = "calc_" ++ ".".intercalate (key :: path)
  parts : ∀ part ∈ key :: path, part ≠ "" ∧ '.' ∉ part.toList

/-- The value is a dictionary at the end of the path, if there is a path. -/
inductive Nested (v : Value) : List String → Value → Prop
  | here : Nested v [] v
  | inside {key : String} {path : List String} {w : Value} : Nested v path w → Nested v (key :: path) (.dict [(key, w)])

inductive Says (name text key : String) : Value → Prop
  | intro {path : List String} {v w : Value} : Names name key path → Means text v → Nested v path w → Says name text key w

end Calculator.Settings.Environment
