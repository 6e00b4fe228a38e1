/-
  Calculator.Json.Reader — readers that take a part off the front of a text of bytes.

  A reader answers with what it has taken and the rest of the bytes, which is shorter than
  what it was given, or with a fault. So a loop that reads part after part ends, and needs
  no counter. Bytes are looked at as characters of the same number; all that JSON's
  structure is made of is below 128.
-/

namespace Calculator.Json

inductive Fault where
  /-- It ends where it has to go on. -/
  | truncated
  /-- It cannot be continued to any text that is accepted. -/
  | illFormed
  /-- It is JSON, but not of the shape asked for. -/
  | wrongShape
  deriving DecidableEq, Repr

structure Reader (α : Type) where
  read : List UInt8 → Except Fault (α × List UInt8)
  shorter : ∀ {input value rest}, read input = .ok (value, rest) → rest.length < input.length

def skipBlanks (input : List UInt8) : List UInt8 := input.dropWhile fun b => (Char.ofUInt8 b).isWhitespace

theorem length_skipBlanks_le (input : List UInt8) : (skipBlanks input).length ≤ input.length :=
  (input.dropWhile_suffix _).length_le

def expect : List Char → List UInt8 → Except Fault (List UInt8)
  | [], input => .ok input
  | _ :: _, [] => .error .truncated
  | c :: word, b :: rest => if Char.ofUInt8 b = c then expect word rest else .error .illFormed

theorem length_expect_le {word : List Char} {input rest : List UInt8} (h : expect word input = .ok rest) :
    rest.length ≤ input.length := by
  fun_induction expect word input with
  | case1 => cases h; exact Nat.le_refl _
  | case2 => cases h
  | case3 word b input ih => exact Nat.le_succ_of_le (ih h)
  | case4 => cases h

namespace Reader

variable {α β σ : Type}

def map (f : α → β) (r : Reader α) : Reader β where
  read input :=
    match r.read input with
    | .ok (value, rest) => .ok (f value, rest)
    | .error e => .error e
  shorter := by
    intro input value rest h
    split at h
    · next hr => cases h; exact r.shorter hr
    · cases h

def bind (r : Reader α) (next : α → Reader β) : Reader β where
  read input :=
    match r.read input with
    | .ok (value, rest) => (next value).read rest
    | .error e => .error e
  shorter := by
    intro input value rest h
    split at h
    · next hr => exact Nat.lt_trans ((next _).shorter h) (r.shorter hr)
    · cases h

def fail (fault : Fault) : Reader α where
  read _ := .error fault
  shorter h := nomatch h

/-- The same reader, any fault of which is `fault`. -/
def orFail (fault : Fault) (r : Reader α) : Reader α where
  read input := (r.read input).mapError fun _ => fault
  shorter := by
    intro input value rest h
    cases hr : r.read input with
    | ok taken => rw [hr] at h; cases h; exact r.shorter hr
    | error => rw [hr] at h; cases h

def mark (c : Char) : Reader Unit where
  read input :=
    match skipBlanks input with
    | [] => .error .truncated
    | b :: rest => if Char.ofUInt8 b = c then .ok ((), rest) else .error .illFormed
  shorter := by
    intro input value rest h
    have := length_skipBlanks_le input
    split at h
    · cases h
    · next heq =>
      rw [heq] at this
      split at h
      · cases h; exact this
      · cases h

/-- One item after the other with a comma between them, up to the character `close`. An
item reads on from the state that the one before it left. -/
def loop (item : σ → Reader σ) (close : Char) (state : σ) (input : List UInt8) :
    Except Fault (σ × List UInt8) :=
  match _h : (item state).read input with
  | .error e => .error e
  | .ok (state, rest) =>
    match _hs : skipBlanks rest with
    | [] => .error .truncated
    | b :: rest =>
      if Char.ofUInt8 b = ',' then loop item close state rest
      else if Char.ofUInt8 b = close then .ok (state, rest)
      else .error .illFormed
termination_by input.length
decreasing_by
  rename_i rest' _
  have h1 := (item _).shorter _h
  have h2 := length_skipBlanks_le rest'
  rw [_hs] at h2
  exact Nat.lt_trans h2 h1

theorem length_loop_lt {item : σ → Reader σ} {close : Char} {state final : σ} {input rest : List UInt8}
    (h : loop item close state input = .ok (final, rest)) : rest.length < input.length := by
  fun_induction loop item close state input with
  | case1 => cases h
  | case2 => cases h
  | case3 state input state' rest' hr b rest'' hs hb ih =>
    have h1 := (item _).shorter hr
    have h2 := length_skipBlanks_le rest'
    rw [hs] at h2
    exact Nat.lt_trans (ih h) (Nat.lt_trans h2 h1)
  | case4 state input state' rest' hr b rest'' hs hb hc =>
    cases h
    have h1 := (item _).shorter hr
    have h2 := length_skipBlanks_le rest'
    rw [hs] at h2
    exact Nat.lt_trans h2 h1
  | case5 => cases h

/-- The inside of an array or object, whose opening bracket is read already: nothing, or
items with commas between them, and the character `close`. -/
def inside (item : σ → Reader σ) (close : Char) (state : σ) : Reader σ where
  read input :=
    match skipBlanks input with
    | [] => .error .truncated
    | b :: rest => if Char.ofUInt8 b = close then .ok (state, rest) else loop item close state input
  shorter := by
    intro input value rest h
    have := length_skipBlanks_le input
    split at h
    · cases h
    · next heq =>
      rw [heq] at this
      split at h
      · cases h; exact this
      · exact length_loop_lt h

def listInside (item : Reader α) (close : Char) : Reader (List α) :=
  (inside (fun done => item.map (· :: done)) close []).map List.reverse

end Reader

end Calculator.Json
