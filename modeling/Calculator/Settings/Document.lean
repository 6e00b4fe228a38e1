/-
  Calculator.Settings.Document — the settings that a YAML document gives.

  A plain scalar without a tag is null, a truth value, a number or text by its spelling;
  quotes and blocks make it text. A whole number is decimal, without zeros in front, or has
  a base mark, and fits 128 bits. A number with point or exponent has a finite double; the
  infinities and NaN have names. The standard tags ask for a kind. A tag of one's own makes
  a dictionary of one entry: the tag's name and what stands behind it.

  A document is a mapping or empty, and all keys in it are scalars, taken as they are
  spelled. If a key comes twice, the last one counts. At most 128 collections nest, and a
  document may not follow its aliases more than a hundred times for each of its parts.
-/

import Calculator.Settings.Value
import Calculator.Yaml.Node

namespace Calculator.Settings.Document

/-! ## Plain scalars -/

def isNull (s : String) : Bool := ["", "null", "Null", "NULL", "~"].contains s

def bool? (s : String) : Option Bool :=
  if ["true", "True", "TRUE"].contains s then some true
  else if ["false", "False", "FALSE"].contains s then some false
  else none

/-- Digits with a zero in front and nothing but digits behind it, with or without a sign. -/
def isPaddedNumber (s : List Char) : Bool :=
  let digits := Literal.unsigned s
  digits.length > 1 && digits.head? == some '0' && digits.all Char.isDigit

def base (s : List Char) : Nat × List Char :=
  match s with
  | '0' :: 'x' :: digits => (16, digits)
  | '0' :: 'o' :: digits => (8, digits)
  | '0' :: 'b' :: digits => (2, digits)
  | digits => (10, digits)

def isWhole (s : List Char) : Bool :=
  let (base, digits) := base (Literal.unsigned s)
  !isPaddedNumber s && (Literal.natural? base digits).any (Literal.fits 128 (s.head? == some '-'))

def isNotFinite (s : String) : Bool :=
  [".inf", ".Inf", ".INF", "+.inf", "+.Inf", "+.INF", "-.inf", "-.Inf", "-.INF", ".nan", ".NaN", ".NAN"].contains s

def isReal (s : String) : Bool :=
  !isPaddedNumber s.toList && (isNotFinite s || Literal.isFiniteDecimal s.toList)

def plain (s : String) : Value :=
  if isNull s then .null
  else match bool? s with
    | some b => .bool b
    | none => if isWhole s.toList || isReal s then .number s else .text s

/-! ## Nodes -/

/-- The name of a tag of one's own. -/
def ownName? (tag : Option Yaml.Tag) : Option String :=
  tag.bind fun tag => match tag.toList with
    | '!' :: name => some (.ofList name)
    | _ => none

/-- The value of a node, given what stands behind its tag. -/
def behindTag (tag : Option Yaml.Tag) (value : Value) : Value :=
  match ownName? tag with
  | some name => .dict [(name, value)]
  | none => value

/-- The value of a scalar; none if its spelling is not of the kind its tag asks for. -/
def scalar? (tag : Option Yaml.Tag) (isPlain : Bool) (s : String) : Option Value :=
  let untagged := if isPlain then plain s else .text s
  match tag with
  | none => some untagged
  | some "tag:yaml.org,2002:bool" => (bool? s).map .bool
  | some "tag:yaml.org,2002:int" => if isWhole s.toList then some (.number s) else none
  | some "tag:yaml.org,2002:float" => if isNotFinite s || Literal.isFiniteDecimal s.toList then some (.number s) else none
  | some "tag:yaml.org,2002:null" => if isNull s && s ≠ "" then some .null else none
  | tag => some (if (ownName? tag).isSome then behindTag tag untagged else .text s)

def key? : Yaml → Option String
  | .scalar _ _ text => some text
  | .aliased node => key? node
  | _ => none

mutual

def value? : Yaml → Option Value
  | .scalar tag isPlain text => scalar? tag isPlain text
  | .sequence tag items => (values? items).map fun values => behindTag tag (.list values)
  | .mapping tag entries => (entries? entries).map fun d => behindTag tag (.dict d)
  | .aliased node => value? node

def values? : List Yaml → Option (List Value)
  | [] => some []
  | item :: items => do
    let value ← value? item
    return value :: (← values? items)

def entries? : List (Yaml × Yaml) → Option (List (String × Value))
  | [] => some []
  | (key, node) :: entries => do
    let key ← key? key
    let value ← value? node
    return (key, value) :: (← entries? entries)

end

/-! ## Limits -/

mutual

/-- The parts of a node, as it is written: scalars, aliases, and starts and ends of collections. -/
def parts : Yaml → Nat
  | .scalar .. | .aliased _ => 1
  | .sequence _ items => partsOfItems items + 2
  | .mapping _ entries => partsOfEntries entries + 2

def partsOfItems : List Yaml → Nat
  | [] => 0
  | item :: items => parts item + partsOfItems items

def partsOfEntries : List (Yaml × Yaml) → Nat
  | [] => 0
  | (key, node) :: entries => parts key + parts node + partsOfEntries entries

end

mutual

/-- Follows all aliases, also those behind aliases. What is left of the number of times that
may be done; none if it does not suffice. -/
def follow? (left : Nat) : Yaml → Option Nat
  | .scalar .. => some left
  | .aliased node => if left = 0 then none else follow? (left - 1) node
  | .sequence _ items => followItems? left items
  | .mapping _ entries => followEntries? left entries

def followItems? (left : Nat) : List Yaml → Option Nat
  | [] => some left
  | item :: items => do followItems? (← follow? left item) items

def followEntries? (left : Nat) : List (Yaml × Yaml) → Option Nat
  | [] => some left
  | (key, node) :: entries => do followEntries? (← follow? (← follow? left key) node) entries

end

mutual

def nesting : Yaml → Nat
  | .scalar .. => 0
  | .aliased node => nesting node
  | .sequence _ items => nestingOfItems items + 1
  | .mapping _ entries => nestingOfEntries entries + 1

def nestingOfItems : List Yaml → Nat
  | [] => 0
  | item :: items => max (nesting item) (nestingOfItems items)

def nestingOfEntries : List (Yaml × Yaml) → Nat
  | [] => 0
  | (key, node) :: entries => max (max (nesting key) (nesting node)) (nestingOfEntries entries)

end

def nestingLimit : Nat := 128

/-- How many times aliases may be followed for each part of a document. -/
def followLimit : Nat := 100

def isWithinLimits (node : Yaml) : Bool :=
  (follow? (followLimit * parts node) node).isSome && nesting node ≤ nestingLimit

/-! ## Documents -/

/-- The settings of a document's text; none if it is refused. -/
def dict? (text : String) : Option Dict := do
  let document ← Yaml.document? text.toList
  guard (document.all isWithinLimits)
  match document with
  | none => return []
  | some (.mapping _ entries) => entries? entries
  | some (.scalar _ true "") => return []
  | some _ => none

end Calculator.Settings.Document
