/-
  Calculator.Yaml.Node — nodes and documents.

  What belongs to a block collection is told by columns: its entries start in one column,
  and what they hold lies right of it, except that a sequence may start in the column of
  the mapping it is a value of. A mapping's key stays on one line and is short, unless a
  question mark announces it; it is followed by a colon set off by white space, which in
  brackets need not be. A text holds at most one document.

  `fuel` bounds the readers' recursion. Each entry and each level of nesting takes a
  character, so three times the length of the text is enough.
-/

import Calculator.Yaml.Scalar

namespace Calculator.Yaml

/-! ## Properties and aliases -/

structure Properties where
  anchor : Option String
  tag : Option Tag
  deriving DecidableEq, Repr

namespace Properties

def none : Properties := ⟨.none, .none⟩

def isNone (ps : Properties) : Bool := ps.anchor.isNone && ps.tag.isNone

/-- The properties of both, of which only one may have an anchor and only one a tag. -/
def join? (a b : Properties) : Option Properties := do
  guard (!(a.anchor.isSome && b.anchor.isSome) && !(a.tag.isSome && b.tag.isSome))
  return ⟨a.anchor.or b.anchor, a.tag.or b.tag⟩

/-- The node with its tag, which its anchor names from now on. -/
def apply (ps : Properties) (node : Yaml) (p : Position) : Yaml × Position :=
  let node := node.withTag ps.tag
  match ps.anchor with
  | some name => (node, { p with anchors := settle name node p.anchors })
  | .none => (node, p)
where
  settle (name : String) (node : Yaml) : List (String × Option Yaml) → List (String × Option Yaml)
    | [] => []
    | (other, found) :: anchors =>
      if other = name ∧ found.isNone then (name, some node) :: anchors
      else (other, found) :: settle name node anchors

end Properties

def name? (p : Position) : Option (String × Position) := do
  let name := p.rest.takeWhile isNameChar
  let after := p.skip name.length
  guard (!name.isEmpty)
  guard (endsToken after.rest || after.rest.head?.any fun c => ['?', ':', ',', ']', '}', '%', '@', '\x60'].contains c)
  return (.ofList name, after.unfresh)

def startsProperty (p : Position) : Bool := p.rest.head? == some '&' || p.rest.head? == some '!'

/-- One property, and the position of the token behind it. In brackets a tag may be followed
by a comma at once. -/
def property? (flow : Bool) (p : Position) : Option (Properties × Position) :=
  if p.rest.head? == some '&' then do
    let (name, p) ← name? p.next
    return (⟨some name, .none⟩, { p with anchors := (name, .none) :: p.anchors }.toToken flow)
  else do
    let (tag, after) ← tag? p.shorthands p.rest
    guard (endsToken after || (flow && after.head? == some ','))
    return (⟨.none, some tag⟩, (p.skip (p.rest.length - after.length)).unfresh.toToken flow)

/-- An anchor and a tag in either order, where there are any. -/
def properties? (flow : Bool) (p : Position) : Option (Properties × Position) := do
  if !startsProperty p then return (.none, p)
  let (ps, p) ← property? flow p
  if !startsProperty p then return (ps, p)
  let (more, p) ← property? flow p
  return (← ps.join? more, p)

/-! ## Nodes -/

/-- The longest key that no question mark announces. -/
def keyLimit : Nat := 1024

/-- A colon stands here that makes a key of what starts at `start`. -/
def endsKey (start : Position) (p : Position) : Bool :=
  start.fresh && p.line == start.line && p.column ≤ start.column + keyLimit

/-- Right of column `outer`, if there is such a column. -/
def isInside (outer : Option Nat) (p : Position) : Bool := outer.all (· < p.column)

mutual

/-- A node inside of something that starts in column `outer`. A sequence may start in that
column itself if it is `hanging` from a mapping. Where no node stands it is empty. -/
def blockNode? (fuel : Nat) (outer : Option Nat) (hanging : Bool) (p : Position) : Option (Yaml × Position) :=
  match fuel with
  | 0 => .none
  | fuel + 1 => let start := p.toToken false; blockContent? fuel outer hanging .none start start

/-- A node with its properties read as far as `p`, the first of which starts at `start`. -/
def blockContent? (fuel : Nat) (outer : Option Nat) (hanging : Bool) (ps : Properties) (start p : Position) :
    Option (Yaml × Position) :=
  match fuel with
  | 0 => .none
  | fuel + 1 => do
    let hangs := hanging && outer == some p.column && p.isMark '-'
    if p.isOver || !(isInside outer p || hangs) then return ps.apply .empty p
    if startsProperty p then
      -- On a line of their own they may be those of a mapping's first key.
      let ofKey := if p.fresh && !ps.isNone then blockEntries? fuel p.column p else .none
      match ofKey with
      | some (entries, q) => return ps.apply (.mapping .none entries) q
      | .none =>
        let (more, q) ← property? false p
        blockContent? fuel outer hanging (← ps.join? more) start q
    else if p.isMark '-' then
      guard p.fresh
      let (items, p) ← blockItems? fuel p.column hangs p
      return ps.apply (.sequence .none items) p
    else if p.isMark '?' then
      guard p.fresh
      let (entries, p) ← blockEntries? fuel p.column p
      return ps.apply (.mapping .none entries) p
    else if p.rest.head? == some '|' || p.rest.head? == some '>' then
      let (text, p) ← block? (p.rest.head? == some '|') outer p.next
      return ps.apply (.scalar .none false text) p
    else
      -- Properties on the line of a key are the key's.
      let keyStart := if p.fresh then p else start
      let (node, after) ← inline? fuel false (outer.map (· + 1) |>.getD 0) (!ps.isNone) p
      let colon := after.toToken false
      if colon.line == keyStart.line && colon.isMark ':' then
        guard (endsKey keyStart colon)
        let (entries, q) ← blockEntries? fuel keyStart.column keyStart
        if p.fresh then return ps.apply (.mapping .none entries) q
        return (.mapping .none entries, q)
      return ps.apply node after

def blockItems? (fuel : Nat) (column : Nat) (hanging : Bool) (p : Position) : Option (List Yaml × Position) :=
  match fuel with
  | 0 => .none
  | fuel + 1 => do
    let (item, p) ← blockNode? fuel (some column) false p.next.refresh
    let p := p.toToken false
    if p.isOver || p.column < column then return ([item], p)
    if p.column = column && p.isMark '-' then
      guard p.fresh
      let (items, p) ← blockItems? fuel column hanging p
      return (item :: items, p)
    guard (hanging && p.column = column)
    return ([item], p)

def blockEntries? (fuel : Nat) (column : Nat) (p : Position) : Option (List (Yaml × Yaml) × Position) :=
  match fuel with
  | 0 => .none
  | fuel + 1 => do
    guard p.fresh
    let (entry, p) ←
      if p.isMark '?' then do
        let (key, p) ← blockNode? fuel (some column) true p.next.refresh
        let p := p.toToken false
        if p.column = column && p.isMark ':' then
          let (value, p) ← blockNode? fuel (some column) true p.next.refresh
          some ((key, value), p)
        else some ((key, .empty), p)
      else do
        let (ps, q) ← properties? false p
        let (key, q) ← inline? fuel false (column + 1) (!ps.isNone) q
        let (key, q) := ps.apply key q
        let q := q.toToken false
        guard (q.isMark ':' && endsKey p q)
        let (value, q) ← blockNode? fuel (some column) true q.next.unfresh
        some ((key, value), q)
    let p := p.toToken false
    if p.isOver || p.column < column then return ([entry], p)
    guard (p.column = column)
    let (entries, p) ← blockEntries? fuel column p
    return (entry :: entries, p)

/-- A node that needs no indentation: an alias, a scalar or a collection in brackets. Lines
of a plain scalar start at column `margin` or right of it. A colon may stand in place of
the node if it has properties. -/
def inline? (fuel : Nat) (flow : Bool) (margin : Nat) (hasProperties : Bool) (p : Position) :
    Option (Yaml × Position) :=
  match fuel with
  | 0 => .none
  | fuel + 1 => do
    let size := p.rest.length + 1
    match p.rest with
    | '*' :: _ =>
      guard (!hasProperties)
      let (name, p) ← name? p.next
      return (.aliased (← (← p.anchors.lookup name)), p)
    | '"' :: _ =>
      let (text, p) ← doubleQuoted? size [] p.next
      return (.scalar .none false text, p)
    | '\x27' :: _ =>
      let (text, p) ← singleQuoted? size [] p.next
      return (.scalar .none false text, p)
    | '[' :: _ =>
      let (items, p) ← flowItems? fuel true p.next.refresh
      return (.sequence .none items, p.unfresh)
    | '{' :: _ =>
      let (entries, p) ← flowEntries? fuel true p.next.refresh
      return (.mapping .none entries, p.unfresh)
    | s =>
      if hasProperties && (p.isMark ':' || (flow && s.head?.any fun c => isFlowMark c || c == ':')) then
        return (.empty, p)
      guard (startsPlain flow s)
      let (text, p) ← plain? flow margin size [] [] p
      return (.scalar .none true text, p)

def flowNode? (fuel : Nat) (p : Position) : Option (Yaml × Position) :=
  match fuel with
  | 0 => .none
  | fuel + 1 => do
    let (ps, p) ← properties? true (p.toToken true)
    guard (!p.isOver)
    let (node, p) ← inline? fuel true 0 (!ps.isNone) p
    return ps.apply node p

def flowValue? (fuel : Nat) (p : Position) : Option (Yaml × Position) :=
  match fuel with
  | 0 => .none
  | fuel + 1 =>
    let p := p.unfresh.toToken true
    if p.rest.head?.any fun c => c == ',' || c == ']' || c == '}' then some (.empty, p) else flowNode? fuel p

/-- A key in brackets and, if a colon follows, its value. -/
def flowPair? (fuel : Nat) (p : Position) : Option (Yaml × Option Yaml × Position) :=
  match fuel with
  | 0 => .none
  | fuel + 1 => do
    let start := p.toToken true
    if start.rest.head? == some '?' then
      let q := start.next.toToken true
      let (key, q) ←
        if q.rest.head?.any fun c => [',', ':', ']', '}'].contains c then some (.empty, q) else flowNode? fuel q
      let q := q.toToken true
      if q.rest.head? == some ':' then
        let (value, q) ← flowValue? fuel q.next
        return (key, some value, q)
      return (key, some .empty, q)
    let (key, q) ← flowNode? fuel start
    let q := q.toToken true
    if q.rest.head? == some ':' then
      guard (endsKey start.refresh q)
      let (value, q) ← flowValue? fuel q.next
      return (key, some value, q)
    return (key, .none, q)

/-- The items of a sequence in brackets. An item may be a single entry of a mapping. -/
def flowItems? (fuel : Nat) (first : Bool) (p : Position) : Option (List Yaml × Position) :=
  match fuel with
  | 0 => .none
  | fuel + 1 => do
    let p := p.toToken true
    guard (!p.isOver)
    if p.rest.head? == some ']' then return ([], p.next)
    guard (first || p.rest.head? == some ',')
    let p := if first then p else p.next.toToken true
    if p.rest.head? == some ']' then return ([], p.next)
    let (key, value, p) ← flowPair? fuel p
    let item := match value with
      | some value => .mapping .none [(key, value)]
      | .none => key
    let (items, p) ← flowItems? fuel false p
    return (item :: items, p)

def flowEntries? (fuel : Nat) (first : Bool) (p : Position) : Option (List (Yaml × Yaml) × Position) :=
  match fuel with
  | 0 => .none
  | fuel + 1 => do
    let p := p.toToken true
    guard (!p.isOver)
    if p.rest.head? == some '}' then return ([], p.next)
    guard (first || p.rest.head? == some ',')
    let p := if first then p else p.next.toToken true
    if p.rest.head? == some '}' then return ([], p.next)
    let (key, value, p) ← flowPair? fuel p
    let (entries, p) ← flowEntries? fuel false p
    return ((key, value.getD .empty) :: entries, p)

end

/-! ## Documents -/

/-- Past the directives in front of a document, with what they say behind `ds`. -/
def directives? (fuel : Nat) (ds : Directives) (p : Position) : Option (Directives × Position) :=
  match fuel with
  | 0 => .none
  | fuel + 1 => do
    let p := p.toToken false
    if p.column = 0 && p.rest.head? == some '%' then
      let line := p.rest.takeWhile (!isBreak ·)
      directives? fuel (← ds.read? (line.drop 1)) (p.skip line.length)
    else some (ds, p)

def endOfText (fuel : Nat) (p : Position) : Bool :=
  match fuel with
  | 0 => false
  | fuel + 1 =>
    let p := p.toToken false
    p.rest.isEmpty || (p.isDocumentEnd && endOfText fuel (p.skip 3))

/-- The document of a text, of which there is at most one: `some none` if there is none. -/
def document? (text : List Char) : Option (Option Yaml) := do
  guard (text.drop (if text.head? == some '\ufeff' then 1 else 0) |>.all isPrintable)
  let chars := normalize text
  let fuel := 3 * chars.length + 16
  let (ds, p) ← directives? fuel .none (.start chars)
  guard ((ds.isNone || p.isDocumentStart) && !p.isDocumentEnd)
  if p.rest.isEmpty then return .none
  let p := { p with shorthands := ds.shorthands }
  let (node, p) ←
    if p.isDocumentStart then blockNode? fuel .none false (p.skip 3).unfresh else blockNode? fuel .none false p
  guard (endOfText fuel p)
  return some node

end Calculator.Yaml
