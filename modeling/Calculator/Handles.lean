/-
  Calculator.Handles — services that share their memory.

  A handle stands for a service; a shared one is another service over the same memory,
  and a fresh handle has a memory of its own. What one handle remembers, all handles of
  that memory read, and no other.
-/

import Calculator.Service

namespace Calculator

def update {α : Type} (f : Nat → α) (i : Nat) (v : α) : Nat → α := fun j => if j = i then v else f j

/-- The handles in use, numbered from 0, and the memories behind them. -/
structure Handles where
  memoryOf : List Nat
  /-- The memories made so far. -/
  memories : Nat
  services : Nat → Service

namespace Handles

def initial : Handles := ⟨[0], 1, fun _ => .fresh⟩

inductive Operation where
  | calculate (handle : Nat) (expression : String)
  | greeting (handle : Nat)
  | read (handle : Nat)
  | write (handle : Nat) (text : String)
  /-- A handle with a memory of its own. -/
  | fresh
  /-- Another handle over the memory of this one. -/
  | shared (handle : Nat)
  deriving DecidableEq, Repr

inductive Answer where
  | result (r : Except EvalError String)
  | greeting (text : String)
  | last (text : Option String)
  | written
  | handle (n : Nat)
  | unknownHandle

def addHandle (k : Handles) (memory : Nat) : Answer × Handles :=
  (.handle k.memoryOf.length, { k with memoryOf := k.memoryOf ++ [memory] })

/-- Goes on with the memory of a handle, if there is such a handle. -/
def withMemory (k : Handles) (handle : Nat) (go : Nat → Answer × Handles) : Answer × Handles :=
  match k.memoryOf[handle]? with
  | some memory => go memory
  | none => (.unknownHandle, k)

def perform (k : Handles) : Operation → Answer × Handles
  | .fresh =>
    { k with memories := k.memories + 1, services := update k.services k.memories .fresh }.addHandle k.memories
  | .shared h => k.withMemory h k.addHandle
  | .calculate h expression => k.withMemory h fun memory =>
    let (r, service) := (k.services memory).calculate expression
    (.result r, { k with services := update k.services memory service })
  | .greeting h => k.withMemory h fun memory => (.greeting (k.services memory).greeting, k)
  | .read h => k.withMemory h fun memory => (.last (k.services memory).last, k)
  | .write h text => k.withMemory h fun memory =>
    (.written, { k with services := update k.services memory ⟨some text⟩ })

def run (k : Handles) : List Operation → List Answer × Handles
  | [] => ([], k)
  | operation :: operations =>
    let (answer, k) := k.perform operation
    let (answers, k) := k.run operations
    (answer :: answers, k)

end Handles

end Calculator
