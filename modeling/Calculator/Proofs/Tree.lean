/-
  Calculator.Proofs.Tree — the tree behind the value of a list of tokens.

  Each operand of the machine is the value of a tree. A number that is read is a leaf, and an operator that is
  applied joins the two trees on top, the lower one on its left. From the bottom up the leaves are the numbers
  read so far, in their order, and every operator read is in a tree or still pending (`Grown`). No grammar is
  needed for that: it holds of tokens in any order, as long as they come to no error.

  A parenthesis that closes takes away one that is open, so that at any time as many are open as were read and
  not closed (`invariant_openings`).

  Main statement: `treeLaw`.
-/

import Calculator.Proofs.Machine

namespace Calculator

/-! ## Trees -/

namespace Operator

/-- The double that an operator makes of two, a division by zero included. -/
def result (x : Binary64) : Operator → Binary64 → Binary64
  | add, y => x + y
  | sub, y => x - y
  | mul, y => x * y
  | div, y => x / y

theorem apply_eq_ok_iff {o : Operator} {x y value : Binary64} :
    o.apply x y = .ok value ↔ o.result x y = value ∧ (o = .div → y.isZero = false) := by
  cases o with
  | div =>
    by_cases h : y.isZero = true
    · simp [apply_div_of_isZero h, h]
    · simp [apply_div_of_not_isZero h, h, result]
  | add | sub | mul => simp [apply, result]

end Operator

inductive Tree where
  | leaf (x : Binary64)
  | node (left : Tree) (o : Operator) (right : Tree)

namespace Tree

def leaves : Tree → List Binary64
  | leaf x => [x]
  | node left _ right => left.leaves ++ right.leaves

def operators : Tree → List Operator
  | leaf _ => []
  | node left o right => left.operators ++ o :: right.operators

def value : Tree → Binary64
  | leaf x => x
  | node left o right => o.result left.value right.value

def HasNoZeroDivisor : Tree → Prop
  | leaf _ => True
  | node left o right => left.HasNoZeroDivisor ∧ right.HasNoZeroDivisor ∧ (o = .div → right.value.isZero = false)

theorem length_leaves (t : Tree) : t.leaves.length = t.operators.length + 1 := by
  induction t with
  | leaf x => rfl
  | node left o right ihl ihr =>
    simp only [leaves, operators, List.length_append, List.length_cons, ihl, ihr]
    omega

end Tree

namespace Token

def number? : Token → Option Binary64
  | number x => some x
  | _ => none

def operator? : Token → Option Operator
  | operator o => some o
  | _ => none

def numbers (ts : List Token) : List Binary64 := ts.filterMap number?

def operators (ts : List Token) : List Operator := ts.filterMap operator?

theorem numbers_append (ts us : List Token) : numbers (ts ++ us) = numbers ts ++ numbers us := List.filterMap_append

theorem operators_append (ts us : List Token) : operators (ts ++ us) = operators ts ++ operators us := List.filterMap_append

end Token

/-! ## Trees on the operands -/

namespace Machine

def awaited (k : Machine) : List Operator :=
  k.pending.filterMap fun
    | .operator o => some o
    | .opening => none

/-- The operands are the values of the trees, the one on top first, and the trees are made of the tokens read,
less the operators that are pending. -/
structure Grown (read : List Token) (k : Machine) (trees : List Tree) : Prop where
  operands : k.operands = trees.map Tree.value
  leaves : trees.reverse.flatMap Tree.leaves = Token.numbers read
  operators : (trees.flatMap Tree.operators ++ k.awaited).Perm (Token.operators read)
  divisors : ∀ t ∈ trees, t.HasNoZeroDivisor

namespace Grown

variable {read : List Token} {k : Machine} {trees : List Tree}

theorem number (h : Grown read k trees) (x : Binary64) : Grown (read ++ [.number x]) (k.push x) (.leaf x :: trees) where
  operands := congrArg (x :: ·) h.operands
  leaves := by
    rw [List.reverse_cons, List.flatMap_append, h.leaves, Token.numbers_append]
    rfl
  operators := by
    rw [Token.operators_append]
    exact h.operators.trans (.of_eq (List.append_nil _).symm)
  divisors := List.forall_mem_cons.2 ⟨trivial, h.divisors⟩

theorem await (h : Grown read k trees) (o : Operator) : Grown (read ++ [.operator o]) (k.await o) trees where
  operands := h.operands
  leaves := by
    rw [h.leaves, Token.numbers_append]
    exact (List.append_nil _).symm
  operators := by
    rw [Token.operators_append]
    calc (trees.flatMap Tree.operators ++ o :: k.awaited).Perm (o :: (trees.flatMap Tree.operators ++ k.awaited)) :=
          List.perm_middle
      List.Perm _ (o :: Token.operators read) := h.operators.cons o
      List.Perm _ (Token.operators read ++ [o]) := (List.perm_append_singleton ..).symm
  divisors := h.divisors

/-- A parenthesis takes no part in any tree. -/
theorem parenthesis {m : Machine} {t : Token} (h : Grown read k trees) (ht : Token.numbers [t] = [] ∧ Token.operators [t] = [])
    (hoperands : m.operands = k.operands) (hawaited : m.awaited = k.awaited) : Grown (read ++ [t]) m trees where
  operands := hoperands.trans h.operands
  leaves := by rw [h.leaves, Token.numbers_append, ht.1, List.append_nil]
  operators := by
    rw [Token.operators_append, ht.2, List.append_nil, hawaited]
    exact h.operators
  divisors := h.divisors

/-- The trees on both sides of an operator that is applied become one. -/
theorem apply {o : Operator} {x y value : Binary64} (h : Grown read (((k.push x).await o).push y) trees)
    (hvalue : o.apply x y = .ok value) : ∃ trees, Grown read (k.push value) trees := by
  obtain ⟨hresult, hzero⟩ := Operator.apply_eq_ok_iff.1 hvalue
  obtain ⟨right, trees, rfl, rfl, hmap⟩ := List.map_eq_cons_iff.1 h.operands.symm
  obtain ⟨left, trees, rfl, rfl, hrest⟩ := List.map_eq_cons_iff.1 hmap
  obtain ⟨hright, hdivisors⟩ := List.forall_mem_cons.1 h.divisors
  obtain ⟨hleft, hdivisors⟩ := List.forall_mem_cons.1 hdivisors
  refine ⟨.node left o right :: trees, ?_, ?_, ?_, List.forall_mem_cons.2 ⟨⟨hleft, hright, hzero⟩, hdivisors⟩⟩
  · show value :: k.operands = Operator.result left.value o right.value :: trees.map Tree.value
    rw [hresult, hrest]
  · rw [← h.leaves]
    simp [Tree.leaves]
  · refine List.Perm.trans (List.perm_iff_count.2 fun other => ?_) h.operators
    show _ = ((right :: left :: trees).flatMap Tree.operators ++ o :: k.awaited).count other
    simp only [List.flatMap_cons, Tree.operators, List.count_append, List.count_cons]
    show _ + k.awaited.count other = _
    omega

end Grown

/-- The operands of the machine always are the values of such trees. -/
theorem invariant_grown : Invariant fun read k => ∃ trees, Grown read k trees where
  number := by
    intro read k x ⟨trees, h⟩
    exact ⟨_, h.number x⟩
  opening := by
    intro read k ⟨trees, h⟩
    exact ⟨trees, h.parenthesis ⟨rfl, rfl⟩ rfl rfl⟩
  operator := by
    intro read k o ⟨trees, h⟩ _
    exact ⟨trees, h.await o⟩
  closing := by
    intro read k ⟨trees, h⟩
    exact ⟨trees, h.parenthesis ⟨rfl, rfl⟩ rfl rfl⟩
  apply := by
    intro read k o x y value hvalue ⟨trees, h⟩
    exact h.apply hvalue

/-- The parentheses that are open are those read and not closed. -/
theorem invariant_openings :
    Invariant fun read k => k.pending.count .opening + read.count .closing = read.count .opening where
  number := by
    intro read k x h
    simpa [push, List.count_append] using h
  opening := by
    intro read k h
    rw [List.count_append, List.count_append, enter, List.count_cons_self]
    show _ + 1 + (_ + 0) = _ + 1
    omega
  operator := by
    intro read k o h _
    simpa [await, List.count_append] using h
  closing := by
    intro read k h
    rw [enter, List.count_cons_self] at h
    rw [List.count_append, List.count_append]
    show _ + (_ + 1) = _ + 0
    omega
  apply := by
    intro read k o x y value _ h
    simpa [push, await] using h

end Machine

/-! ## The tree of the tokens -/

/-- What tokens with a value are made of. -/
structure TreeLaw (ts : List Token) (value : Binary64) : Prop where
  /-- Every number and every operator is used once, and the numbers stay in their order. -/
  tree : ∃ t : Tree, t.leaves = Token.numbers ts ∧ t.operators.Perm (Token.operators ts) ∧ t.value = value ∧
    t.HasNoZeroDivisor
  length : (Token.numbers ts).length = (Token.operators ts).length + 1
  nested : ∀ front, front <+: ts → front.count .closing ≤ front.count .opening
  closed : ts.count .closing = ts.count .opening

/-- Whatever their order, tokens that have a value have that of a tree made of them. -/
theorem treeLaw {ts : List Token} {value : Binary64} (h : evaluateTokens ts = .ok value) : TreeLaw ts value := by
  have hclosed := Machine.invariant_openings.evaluateTokens h rfl
  obtain ⟨trees, hgrown⟩ := Machine.invariant_grown.evaluateTokens h ⟨[], rfl, rfl, .refl _, nofun⟩
  obtain ⟨t, rest, rfl, hvalue, hrest⟩ := List.map_eq_cons_iff.1 hgrown.operands.symm
  rw [List.map_eq_nil_iff] at hrest
  subst hrest
  have hleaves : t.leaves = Token.numbers ts := by simpa using hgrown.leaves
  have hoperators : t.operators.Perm (Token.operators ts) := by simpa [Machine.awaited] using hgrown.operators
  refine ⟨⟨t, hleaves, hoperators, hvalue, hgrown.divisors t List.mem_cons_self⟩, ?_, ?_, ?_⟩
  · rw [← hleaves, ← hoperators.length_eq]
    exact t.length_leaves
  · intro front hfront
    obtain ⟨rest, rfl⟩ := hfront
    obtain ⟨m, hm, -⟩ := bind_eq_ok.1 h
    rw [Machine.run_append] at hm
    obtain ⟨k, hk, -⟩ := bind_eq_ok.1 hm
    have hopenings := Machine.invariant_openings.run hk rfl
    omega
  · simpa using hclosed

/-- In `2(3+)` the operator takes an operand from outside the parentheses, and that comes first in the tree. -/
theorem treeLaw_dangling :
    let ts : List Token := [.number (.ofNat 2), .opening, .number (.ofNat 3), .operator .add, .closing]
    evaluateTokens ts = .ok (.ofNat 5) ∧ TreeLaw ts (.ofNat 5) := by
  have hvalue : evaluateTokens [.number (.ofNat 2), .opening, .number (.ofNat 3), .operator .add, .closing] = .ok (.ofNat 5) :=
    eq_ok_of_toOption (by decide +kernel)
  exact ⟨hvalue, treeLaw hvalue⟩

end Calculator
