/-
  Calculator.Machine — evaluation with two stacks, in one pass over the tokens.

  A number goes onto the operand stack and an opening parenthesis onto the stack of what
  is pending. An operator first applies the pending operators of at least its own rank,
  and a closing parenthesis all of them down to the parenthesis it matches, which it
  takes away. The end applies all that is left, and one operand must remain.

  Applying takes the two operands on top, the lower one first. There is no check that
  operators stand between operands: only a missing operand, an unmatched parenthesis or a
  surplus operand is noticed.
-/

import Calculator.Token

namespace Calculator

/-- What waits for operands or for its match. -/
inductive Pending where
  | operator (o : Operator)
  | opening
  deriving DecidableEq, Repr

/-- The two stacks, each with its top first. -/
structure Machine where
  operands : List Binary64
  pending : List Pending
  deriving DecidableEq

namespace Machine

def empty : Machine := ⟨[], []⟩

/-- Applies the pending operators from the top for as long as they are `due`, stopping at
an opening parenthesis. -/
def unwind (due : Operator → Bool) (operands : List Binary64) : List Pending → Except EvalError Machine
  | .operator o :: pending =>
    if due o then
      match operands with
      | y :: x :: operands =>
        match o.apply x y with
        | .ok value => unwind due (value :: operands) pending
        | .error e => .error e
      | _ => .error .malformed
    else .ok ⟨operands, .operator o :: pending⟩
  | pending => .ok ⟨operands, pending⟩

def step (k : Machine) : Token → Except EvalError Machine
  | .number x => .ok { k with operands := x :: k.operands }
  | .opening => .ok { k with pending := .opening :: k.pending }
  | .operator o => do
    let k ← unwind (fun top => o.rank ≤ top.rank) k.operands k.pending
    return { k with pending := .operator o :: k.pending }
  | .closing => do
    let k ← unwind (fun _ => true) k.operands k.pending
    match k.pending with
    | .opening :: pending => return { k with pending }
    | _ => throw .malformed

def run (k : Machine) (tokens : List Token) : Except EvalError Machine := tokens.foldlM step k

def finish (k : Machine) : Except EvalError Binary64 := do
  match ← unwind (fun _ => true) k.operands k.pending with
  | ⟨[value], []⟩ => return value
  | _ => throw .malformed

end Machine

def evaluateTokens (tokens : List Token) : Except EvalError Binary64 := do
  (← Machine.empty.run tokens).finish

/-- The value of a text whose form is not checked. White space between tokens is skipped. -/
def evaluate (text : List Char) : Except EvalError Binary64 := do
  evaluateTokens (← tokenize text)

end Calculator
