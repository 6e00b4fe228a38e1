/-
  Calculator.Yaml.Scalar — scalars: plain, in quotes and as blocks.

  A plain scalar runs on over lines for as long as they are indented enough, up to a colon
  or a comment set off by white space, or, in brackets, one of the marks of a collection.
  Quotes run on to the closing quote. A block's lines are indented by as much as its first
  one, or as its header says; literal blocks keep line breaks and folded ones turn single
  breaks between unindented lines into spaces; the header says what becomes of the breaks
  at the end: all but the first are dropped, or all are kept or dropped.
-/

import Calculator.Settings.Literal
import Calculator.Yaml.Position

namespace Calculator.Yaml

abbrev Taken := Option (String × Position)

/-! ## Plain -/

def isFlowMark (c : Char) : Bool := [',', '[', ']', '{', '}'].contains c

def isIndicator (c : Char) : Bool :=
  isFlowMark c || ['-', '?', ':', '#', '&', '*', '!', '|', '>', '\x27', '"', '%', '@', '\x60'].contains c

def startsPlain (flow : Bool) (s : List Char) : Bool :=
  match s with
  | [] => false
  | c :: rest =>
    !endsToken s && (!isIndicator c || (c == '-' && !endsToken rest)
      || (!flow && (c == '?' || c == ':') && !endsToken rest))

/-- How many characters belong to the word of a plain scalar that starts here; none if a
colon in it may not stand where it does. -/
def wordLength? (flow : Bool) : List Char → Option Nat
  | [] => some 0
  | c :: rest =>
    if isSpaceOrTab c || isBreak c then some 0
    else if c == ':' && endsToken rest then some 0
    else if flow && c == ':' && (rest.head?.any fun d => isFlowMark d || d == '?') then none
    else if flow && isFlowMark c then some 0
    else (wordLength? flow rest).map (· + 1)

/-- A plain scalar. `margin` is the least column of its lines but the first. -/
def plain? (flow : Bool) (margin fuel : Nat) (done pending : List Char) (p : Position) : Taken :=
  match fuel with
  | 0 => none
  | fuel + 1 => do
    if p.isOver || p.rest.head? == some '#' then return (.ofList done.reverse, p)
    let n ← wordLength? flow p.rest
    if n = 0 then return (.ofList done.reverse, p)
    let done := (p.rest.take n).reverse ++ (pending.reverse ++ done)
    let g := gap margin false (p.skip n)
    if g.tabbed then none
    let after := if g.broken then g.after.refresh else g.after.unfresh
    if g.folded.isEmpty || (!flow && after.column < margin) then return (.ofList done.reverse, after)
    plain? flow margin fuel done g.folded after

/-! ## Quoted -/

/-- A quote in single quotes is written twice. -/
def singleQuoted? (fuel : Nat) (done : List Char) (p : Position) : Taken :=
  match fuel with
  | 0 => none
  | fuel + 1 =>
    if p.isOver then none
    else match p.rest with
      | '\x27' :: '\x27' :: _ => singleQuoted? fuel ('\x27' :: done) (p.skip 2)
      | '\x27' :: _ => some (.ofList done.reverse, p.next.unfresh)
      | c :: rest =>
        if endsToken (c :: rest) then
          let g := gap 0 false p
          singleQuoted? fuel (g.folded.reverse ++ done) g.after
        else singleQuoted? fuel (c :: done) p.next
      | [] => none

def letterEscape? : Char → Option Char
  | '0' => some '\x00'
  | 'a' => some '\x07'
  | 'b' => some '\x08'
  | 't' | '\t' => some '\t'
  | 'n' => some '\n'
  | 'v' => some '\x0b'
  | 'f' => some '\x0c'
  | 'r' => some '\r'
  | 'e' => some '\x1b'
  | ' ' => some ' '
  | '"' => some '"'
  | '/' => some '/'
  | '\\' => some '\\'
  | 'N' => some '\u0085'
  | '_' => some '\u00a0'
  | 'L' => some '\u2028'
  | 'P' => some '\u2029'
  | _ => none

/-- How many hexadecimal digits follow a letter behind a backslash. -/
def codeLength? : Char → Option Nat
  | 'x' => some 2
  | 'u' => some 4
  | 'U' => some 8
  | _ => none

/-- The character of an escape, behind its backslash, and how long the escape is. -/
def escape? (s : List Char) : Option (Char × Nat) := do
  let letter ← s.head?
  match codeLength? letter with
  | none => return (← letterEscape? letter, 1)
  | some n =>
    let digits := (s.drop 1).take n
    guard (digits.length = n)
    let code ← Settings.Literal.natural? 16 digits
    guard code.isValidChar
    return (Char.ofNat code, n + 1)

/-- In double quotes a backslash escapes, at the end of a line too. -/
def doubleQuoted? (fuel : Nat) (done : List Char) (p : Position) : Taken :=
  match fuel with
  | 0 => none
  | fuel + 1 =>
    if p.isOver then none
    else match p.rest with
      | '"' :: _ => some (.ofList done.reverse, p.next.unfresh)
      | '\\' :: c :: rest =>
        if isBreak c then
          let g := gap 0 true (p.skip 2)
          doubleQuoted? fuel (g.folded.reverse ++ done) g.after
        else do
          let (escaped, n) ← escape? (c :: rest)
          doubleQuoted? fuel (escaped :: done) (p.skip (n + 1))
      | c :: rest =>
        if endsToken (c :: rest) then
          let g := gap 0 false p
          doubleQuoted? fuel (g.folded.reverse ++ done) g.after
        else doubleQuoted? fuel (c :: done) p.next
      | [] => none

/-! ## Blocks -/

inductive Chomping where
  | clip
  | strip
  | keep
  deriving DecidableEq, Repr

structure Header where
  chomping : Chomping
  /-- By how much the block is indented more than what it is part of. -/
  indent : Option Nat
  deriving DecidableEq, Repr

def chomping? : Char → Option Chomping
  | '+' => some .keep
  | '-' => some .strip
  | _ => none

def indent? (c : Char) : Option Nat := if c.isDigit && c != '0' then some (c.toNat - '0'.toNat) else none

/-- The header of a block, behind its `|` or `>`, and its length. -/
def header? (s : List Char) : Option (Header × Nat) :=
  match s with
  | a :: b :: _ =>
    match chomping? a, indent? a with
    | some chomping, _ =>
      match indent? b with
      | some n => some (⟨chomping, some n⟩, 2)
      | none => if b == '0' then none else some (⟨chomping, none⟩, 1)
    | none, some n =>
      match chomping? b with
      | some chomping => some (⟨chomping, some n⟩, 2)
      | none => some (⟨.clip, some n⟩, 1)
    | none, none => if a == '0' then none else some (⟨.clip, none⟩, 0)
  | [a] =>
    match chomping? a, indent? a with
    | some chomping, _ => some (⟨chomping, none⟩, 1)
    | none, some n => some (⟨.clip, some n⟩, 1)
    | none, none => if a == '0' then none else some (⟨.clip, none⟩, 0)
  | [] => some (⟨.clip, none⟩, 0)

structure Empties where
  breaks : List Char
  /-- The greatest column reached in them. -/
  widest : Nat
  after : Position

/-- Past empty lines and the indentation of the line behind them; `indent` is 0 while it is
not known. No tab may stand in the indentation. -/
def empties? (indent : Nat) (p : Position) : Option Empties := go [] 0 p.line p.column p.rest
where
  go (breaks : List Char) (widest line column : Nat) (s : List Char) : Option Empties :=
    let inIndent := indent == 0 || column < indent
    match s with
    | [] => some ⟨breaks.reverse, max widest column, { p with rest := [], line, column }⟩
    | c :: rest =>
      if c == ' ' && inIndent then go breaks widest line (column + 1) rest
      else if c == '\t' && inIndent then none
      else if isBreak c then go (c :: breaks) (max widest column) (line + 1) 0 rest
      else some ⟨breaks.reverse, max widest column, { p with rest := s, line, column }⟩

/-- The lines of a block. Of the text behind `done`, `last` is the break of the last line and
`breaks` those of the empty lines after it; `indented` tells whether that line started with
white space. -/
def blockLines? (literal : Bool) (indent fuel : Nat) (done last breaks : List Char) (indented : Bool)
    (p : Position) : Option (List Char × List Char × List Char × Position) :=
  match fuel with
  | 0 => none
  | fuel + 1 =>
    if p.column ≠ indent || p.rest.isEmpty then some (done, last, breaks, p)
    else do
      let startsBlank := p.rest.head?.any isSpaceOrTab
      let between :=
        if !literal && last == ['\n'] && !indented && !startsBlank then
          if breaks.isEmpty then [' '] else breaks
        else last ++ breaks
      let text := p.rest.takeWhile (!isBreak ·)
      let atBreak := p.skip text.length
      let e ← empties? indent atBreak.next
      blockLines? literal indent fuel (text.reverse ++ (between.reverse ++ done)) (atBreak.rest.take 1) e.breaks
        startsBlank e.after

/-- A block scalar, behind its `|` or `>`, inside of something indented by `outer`. -/
def block? (literal : Bool) (outer : Option Nat) (p : Position) : Taken := do
  let (header, n) ← header? p.rest
  let p := p.skip n
  let blanks := p.rest.takeWhile isSpaceOrTab
  let p := p.skip blanks.length
  let p := if p.rest.head? == some '#' then p.skip (p.rest.takeWhile (!isBreak ·)).length else p
  guard (p.rest.isEmpty || p.rest.head?.any isBreak)
  let p := p.next
  let least := match outer with
    | some n => n + 1
    | none => 0
  let fixed := match header.indent, outer with
    | some n, some m => m + n
    | some n, none => n
    | none, _ => 0
  let e ← empties? fixed p
  let indent := if fixed = 0 then max (max e.widest least) 1 else fixed
  let (done, last, breaks, p) ← blockLines? literal indent (p.rest.length + 1) [] [] e.breaks false e.after
  let tail := match header.chomping with
    | .strip => []
    | .clip => last
    | .keep => last ++ breaks
  return (.ofList (done.reverse ++ tail), p.refresh)

end Calculator.Yaml
