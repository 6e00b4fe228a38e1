/-
  Calculator.Yaml.Position — where a reader of a document stands.

  Columns count from 0. A block collection, or the key of a block mapping, may start only
  where a line starts or behind another mark that starts one; such a position is `fresh`.
  Line breaks are a line feed, into which a carriage return, the two together and the next
  line control are turned first, and the separators of lines and paragraphs.
-/

import Calculator.Yaml.Tag

namespace Calculator.Yaml

structure Position where
  rest : List Char
  line : Nat
  column : Nat
  /-- A block collection may start here. -/
  fresh : Bool
  /-- The names given so far, the last one first, with their nodes as far as these are read. -/
  anchors : List (String × Option Yaml)
  /-- The shorthands that are declared. -/
  shorthands : Shorthands

/-- Line breaks of one character, and no byte order mark in front. -/
def normalize : List Char → List Char
  | '\ufeff' :: rest => breaks rest
  | s => breaks s
where
  breaks : List Char → List Char
    | '\r' :: '\n' :: rest => '\n' :: breaks rest
    | '\r' :: rest => '\n' :: breaks rest
    | '\u0085' :: rest => '\n' :: breaks rest
    | c :: rest => c :: breaks rest
    | [] => []

def isPrintable (c : Char) : Bool :=
  let n := c.toNat
  n == 0x09 || n == 0x0A || n == 0x0D || (0x20 ≤ n && n ≤ 0x7E) || n == 0x85 || (0xA0 ≤ n && n ≤ 0xD7FF)
    || (0xE000 ≤ n && n ≤ 0xFFFD && n != 0xFEFF) || 0x10000 ≤ n

namespace Position

def start (text : List Char) : Position := ⟨text, 0, 0, true, [], []⟩

def next (p : Position) : Position :=
  match p.rest with
  | [] => p
  | c :: rest =>
    if isBreak c then { p with rest, line := p.line + 1, column := 0 }
    else { p with rest, column := p.column + 1 }

def skip (p : Position) (n : Nat) : Position :=
  match n with
  | 0 => p
  | n + 1 => p.next.skip n

def unfresh (p : Position) : Position := { p with fresh := false }

def refresh (p : Position) : Position := { p with fresh := true }

/-- The characters `cs` stand here, at the start of a line, and end a token. -/
def isMarker (p : Position) (cs : List Char) : Bool :=
  p.column == 0 && cs.isPrefixOf p.rest && endsToken (p.rest.drop cs.length)

def isDocumentStart (p : Position) : Bool := p.isMarker ['-', '-', '-']

def isDocumentEnd (p : Position) : Bool := p.isMarker ['.', '.', '.']

def isOver (p : Position) : Bool := p.rest.isEmpty || p.isDocumentStart || p.isDocumentEnd

/-- The character `c` stands here, as a mark of its own. -/
def isMark (p : Position) (c : Char) : Bool :=
  match p.rest with
  | d :: rest => c == d && endsToken rest
  | [] => false

/-- Past white space, line breaks and comments. A tab may not stand where a block collection
could start, unless this is in brackets (`flow`). -/
def toToken (flow : Bool) (p : Position) : Position := go false p.line p.column p.fresh p.rest
where
  go (comment : Bool) (line column : Nat) (fresh : Bool) : List Char → Position
    | [] => { p with rest := [], line, column, fresh }
    | c :: rest =>
      if isBreak c then go false (line + 1) 0 (fresh || !flow) rest
      else if comment || c == ' ' || (c == '\t' && (flow || !fresh)) then go comment line (column + 1) fresh rest
      else if c == '#' then go true line (column + 1) fresh rest
      else { p with rest := c :: rest, line, column, fresh }

end Position

/-! ## White space inside scalars -/

/-- White space between two words of a scalar. -/
structure Gap where
  /-- What it amounts to: white space on one line stays; a single line break is a space, and
  of several all but the first stay. -/
  folded : List Char
  /-- It holds a line break. -/
  broken : Bool
  /-- A tab stands in the indentation, left of the column asked about. -/
  tabbed : Bool
  after : Position

/-- The gap at a position; `margin` is the least column of the scalar's text. If a line break
has been escaped already, `escaped` is set. -/
def gap (margin : Nat) (escaped : Bool) (p : Position) : Gap :=
  go [] (if escaped then some none else none) [] false p.line p.column p.rest
where
  folded (blanks : List Char) (first : Option (Option Char)) (breaks : List Char) : List Char :=
    match first with
    | none => blanks.reverse
    | some none => breaks.reverse
    | some (some c) => if c = '\n' then if breaks.isEmpty then [' '] else breaks.reverse else c :: breaks.reverse
  go (blanks : List Char) (first : Option (Option Char)) (breaks : List Char) (tabbed : Bool) (line column : Nat)
      (s : List Char) : Gap :=
    match s with
    | [] => ⟨folded blanks first breaks, first.isSome, tabbed, { p with rest := [], line, column }⟩
    | c :: rest =>
      if isBreak c then
        if first.isSome then go blanks first (c :: breaks) tabbed (line + 1) 0 rest
        else go blanks (some (some c)) breaks tabbed (line + 1) 0 rest
      else if isSpaceOrTab c then
        if first.isSome then
          go blanks first breaks (tabbed || (c == '\t' && column < margin)) line (column + 1) rest
        else go (c :: blanks) first breaks tabbed line (column + 1) rest
      else ⟨folded blanks first breaks, first.isSome, tabbed, { p with rest := c :: rest, line, column }⟩

end Calculator.Yaml
