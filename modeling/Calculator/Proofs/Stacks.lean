/-
  Calculator.Proofs.Stacks — what waits on the stack of operators, and in which order.

  `Stacks` is the machine without a type for what waits: its second stack takes tokens of any kind, each reduction
  looks at the kind it finds there, and whatever is no operator has rank zero. It runs as the machine does, errors
  included (`run_toStacks`, `Stacks.evaluate_eq`). So it never finds anything there but operators and open
  parentheses, and no rank of zero is ever compared.

  An operator is put down only once all those on top of at least its own rank are applied. So each lies on an open
  parenthesis, on an operator of lower rank or at the bottom, and taking the top away, operator or parenthesis, leaves
  it so below (`invariant_climbing`). There are two ranks. So at most two operators wait between one open parenthesis
  and the next, and the height of the stack is bounded by the depth alone (`length_pending_lt`).

  Main statement: `stackLaw`.
-/

import Mathlib.Data.List.Chain
import Mathlib.Data.List.Count
import Calculator.Proofs.Tree

namespace Calculator

/-! ## A stack for tokens of any kind -/

/-- The rank of an operator. Any other token has rank zero. -/
def Token.rank : Token → Nat
  | .operator o => o.rank
  | _ => 0

/-- Two stacks, each with its top first. -/
structure Stacks where
  operands : List Binary64
  waiting : List Token
  deriving DecidableEq

namespace Stacks

def empty : Stacks := ⟨[], []⟩

def reduce (top : Token) : List Binary64 → Except EvalError (List Binary64)
  | y :: x :: operands =>
    match top with
    | .operator o => (o.apply x y).map (· :: operands)
    | _ => .error .malformed
  | _ => .error .malformed

/-- Reduces for as long as what is on top makes it go on. With nothing on top it cannot. -/
def reduceWhile (goesOn : Option Token → Bool) : List Binary64 → List Token → Except EvalError Stacks
  | operands, [] => if goesOn none then .error .malformed else .ok ⟨operands, []⟩
  | operands, top :: waiting =>
    if goesOn (some top) then do reduceWhile goesOn (← reduce top operands) waiting
    else .ok ⟨operands, top :: waiting⟩

def goesBefore (arriving : Token) : Option Token → Bool
  | none | some .opening => false
  | some top => arriving.rank ≤ top.rank

def step (s : Stacks) : Token → Except EvalError Stacks
  | .number x => .ok { s with operands := x :: s.operands }
  | .opening => .ok { s with waiting := .opening :: s.waiting }
  | .operator o => do
    let s ← reduceWhile (goesBefore (.operator o)) s.operands s.waiting
    return { s with waiting := .operator o :: s.waiting }
  | .closing => do
    let s ← reduceWhile (· != some .opening) s.operands s.waiting
    return { s with waiting := s.waiting.tail }

def run (s : Stacks) (tokens : List Token) : Except EvalError Stacks := tokens.foldlM step s

def finish (s : Stacks) : Except EvalError Binary64 := do
  match (← reduceWhile Option.isSome s.operands s.waiting).operands with
  | [value] => return value
  | _ => throw .malformed

def evaluate (tokens : List Token) : Except EvalError Binary64 := do
  (← empty.run tokens).finish

end Stacks

/-! ## The machine on such stacks -/

def Pending.token : Pending → Token
  | .operator o => .operator o
  | .opening => .opening

namespace Machine

def toStacks (k : Machine) : Stacks := ⟨k.operands, k.pending.map Pending.token⟩

/-- Reducing does what unwinding does, and fails behind that if it should go on: what is on top then is no operator. -/
theorem reduceWhile_eq {goesOn : Option Token → Bool} (due : Operator → Bool)
    (h : ∀ o, goesOn (some (.operator o)) = due o) (operands : List Binary64) (pending : List Pending) :
    Stacks.reduceWhile goesOn operands (pending.map Pending.token) =
      unwind due operands pending >>= fun k =>
        if goesOn k.toStacks.waiting.head? then .error .malformed else .ok k.toStacks := by
  induction pending generalizing operands with
  | nil => rfl
  | cons top pending ih =>
    cases top with
    | opening =>
      show (if goesOn (some .opening) then _ else _) = if goesOn (some .opening) then _ else _
      by_cases hopening : goesOn (some .opening)
      · rw [if_pos hopening, if_pos hopening]
        -- with or without operands, a parenthesis cannot be applied
        rcases operands with _ | ⟨y, _ | ⟨x, operands⟩⟩ <;> rfl
      · rw [if_neg hopening, if_neg hopening]
        rfl
    | operator o =>
      show (if goesOn (some (.operator o)) then _ else _) = _
      by_cases hdue : due o
      · rw [if_pos ((h o).trans hdue)]
        rcases operands with _ | ⟨y, _ | ⟨x, operands⟩⟩
        · rw [unwind_missing hdue (by simp)]
          rfl
        · rw [unwind_missing hdue (by simp)]
          rfl
        · rw [unwind_apply hdue]
          show (o.apply x y).map _ >>= _ = _
          cases o.apply x y with
          | error e => rfl
          | ok value => exact ih (value :: operands)
      · have hstop : ¬ goesOn (some (.operator o)) := by rwa [h o]
        rw [if_neg hstop, unwind_of_not_due hdue]
        exact (if_neg hstop).symm

theorem goesBefore_of_below {o : Operator} {k : Machine} (h : Below o.rank k.pending) :
    Stacks.goesBefore (.operator o) k.toStacks.waiting.head? = false := by
  obtain ⟨operands, pending⟩ := k
  rcases pending with _ | ⟨_ | _, pending⟩
  · rfl
  · next top =>
    exact decide_eq_false (Nat.not_le_of_lt (h top rfl))
  · rfl

theorem reduceWhile_toStacks {goesOn : Option Token → Bool} {r : Nat}
    (h : ∀ o, goesOn (some (.operator o)) = decide (r ≤ o.rank)) (k : Machine) :
    Stacks.reduceWhile goesOn k.toStacks.operands k.toStacks.waiting =
      k.settle r >>= fun m => if goesOn m.toStacks.waiting.head? then .error .malformed else .ok m.toStacks :=
  reduceWhile_eq _ h k.operands k.pending

theorem decide_one_le_rank (o : Operator) : true = decide (1 ≤ o.rank) := (congrFun one_le_rank o).symm

theorem step_toStacks (k : Machine) (t : Token) : k.toStacks.step t = (k.step t).map toStacks := by
  cases t with
  | number x => rfl
  | opening => rfl
  | operator o =>
    rw [Stacks.step, reduceWhile_toStacks (r := o.rank) fun _ => rfl, step_operator]
    cases hm : k.settle o.rank with
    | error e => rfl
    | ok m =>
      show ((if _ then _ else _) >>= _) = _
      rw [goesBefore_of_below (below_settle hm)]
      rfl
  | closing =>
    rw [Stacks.step, reduceWhile_toStacks decide_one_le_rank, step_closing]
    cases k.settle 1 with
    | error e => rfl
    | ok m =>
      obtain ⟨operands, pending⟩ := m
      rcases pending with _ | ⟨_ | _, pending⟩ <;> rfl

theorem run_toStacks (k : Machine) (ts : List Token) : k.toStacks.run ts = (k.run ts).map toStacks := by
  induction ts generalizing k with
  | nil => rfl
  | cons t ts ih =>
    rw [run_cons, Stacks.run, List.foldlM_cons, step_toStacks]
    cases k.step t with
    | error e => rfl
    | ok m => exact ih m

theorem finish_toStacks (k : Machine) : k.toStacks.finish = k.finish := by
  rw [Stacks.finish, reduceWhile_toStacks decide_one_le_rank, finish_eq]
  cases k.settle 1 with
  | error e => rfl
  | ok m =>
    obtain ⟨operands, pending⟩ := m
    rcases pending with _ | ⟨_ | _, pending⟩
    · rcases operands with _ | ⟨value, _ | ⟨x, operands⟩⟩ <;> rfl
    · rcases operands with _ | ⟨value, _ | ⟨x, operands⟩⟩ <;> rfl
    · rcases operands with _ | ⟨value, _ | ⟨x, operands⟩⟩ <;> rfl

end Machine

namespace Stacks

theorem run_eq (tokens : List Token) : empty.run tokens = (Machine.empty.run tokens).map Machine.toStacks :=
  Machine.run_toStacks .empty tokens

/-- On a stack for tokens of any kind, tokens have the same value or come to the same error. -/
theorem evaluate_eq (tokens : List Token) : evaluate tokens = evaluateTokens tokens := by
  rw [evaluate, evaluateTokens, run_eq]
  cases Machine.empty.run tokens with
  | error e => rfl
  | ok k => exact k.finish_toStacks

end Stacks

/-! ## The order of what is pending -/

/-- An operator may lie on another one only if it has the higher rank. -/
def Pending.MayLieOn : Pending → Pending → Prop
  | .operator upper, .operator lower => lower.rank < upper.rank
  | _, _ => True

namespace Machine

def Climbing (k : Machine) : Prop := k.pending.IsChain Pending.MayLieOn

namespace Climbing

variable {k : Machine}

theorem await (h : k.Climbing) {o : Operator} (hbelow : Below o.rank k.pending) : (k.await o).Climbing := by
  refine List.isChain_cons.2 ⟨fun lower hlower => ?_, h⟩
  cases lower with
  | opening => trivial
  | operator p => exact hbelow p hlower

theorem enter (h : k.Climbing) : k.enter.Climbing := List.isChain_cons.2 ⟨fun _ _ => trivial, h⟩

/-- What is taken from the top leaves the rest in order, be it an operator or a parenthesis. -/
theorem of_cons {m : Machine} {top : Pending} (h : m.Climbing) (hpending : m.pending = top :: k.pending) : k.Climbing := by
  rw [Climbing, hpending] at h
  exact (List.isChain_cons.1 h).2

end Climbing

theorem invariant_climbing : Invariant fun _ k => k.Climbing where
  number := fun _ _ _ h => h
  opening := fun _ _ h => h.enter
  operator := fun _ _ _ h hbelow => h.await hbelow
  closing := fun _ _ h => h.of_cons rfl
  apply := fun _ _ _ _ _ _ _ h => h.of_cons rfl

/-- An open parenthesis counts for itself and for two operators under it. Above the last one there are fewer than `r`
operators where the top has a rank below `r`. -/
theorem length_pending_lt {pending : List Pending} (h : pending.IsChain Pending.MayLieOn) {r : Nat} (hr : 0 < r)
    (hbelow : Below r pending) : pending.length < 3 * pending.count .opening + r := by
  induction pending generalizing r with
  | nil => simpa using hr
  | cons top pending ih =>
    obtain ⟨htop, hrest⟩ := List.isChain_cons.1 h
    rw [List.length_cons]
    cases top with
    | opening =>
      have hlength := ih hrest (by decide) (below_three pending)
      rw [List.count_cons_self]
      omega
    | operator o =>
      have hrank : 0 < o.rank := by cases o <;> decide
      have hlt : o.rank < r := hbelow o rfl
      have hlength := ih hrest hrank fun p hp => htop (.operator p) hp
      rw [List.count_cons_of_ne (by simp)]
      omega

end Machine

/-! ## What waits on the stack -/

theorem Operator.rank_lt_rank_iff {lower upper : Operator} :
    lower.rank < upper.rank ↔ (lower = .add ∨ lower = .sub) ∧ (upper = .mul ∨ upper = .div) := by
  cases lower <;> cases upper <;> decide

/-- A stretch of the stack that holds no open parenthesis: all there is between two of them, below the first one or
above the last one, or a part of that. -/
def IsSegment (waiting segment : List Token) : Prop := segment <:+: waiting ∧ .opening ∉ segment

namespace Machine

variable {k : Machine} {segment : List Token}

theorem kind_of_mem_waiting {t : Token} (ht : t ∈ k.toStacks.waiting) : t = .opening ∨ ∃ o, t = .operator o := by
  obtain ⟨top, -, rfl⟩ := List.mem_map.1 ht
  cases top with
  | operator o => exact .inr ⟨o, rfl⟩
  | opening => exact .inl rfl

theorem exists_operator_of_mem (h : IsSegment k.toStacks.waiting segment) {t : Token} (ht : t ∈ segment) :
    ∃ o, t = .operator o := by
  rcases kind_of_mem_waiting (h.1.subset ht) with rfl | ho
  · exact absurd ht h.2
  · exact ho

theorem count_opening_waiting (k : Machine) : k.toStacks.waiting.count .opening = k.pending.count .opening := by
  refine List.count_map_of_injective k.pending Pending.token (fun x y h => ?_) .opening
  cases x <;> cases y <;> cases h <;> rfl

theorem Climbing.isChain_waiting (h : k.Climbing) :
    k.toStacks.waiting.IsChain fun upper lower => upper = .opening ∨ lower = .opening ∨ lower.rank < upper.rank := by
  refine (List.isChain_map _).2 (h.imp fun upper lower hlies => ?_)
  cases upper with
  | opening => exact .inl rfl
  | operator o =>
    cases lower with
    | opening => exact .inr (.inl rfl)
    | operator p => exact .inr (.inr hlies)

theorem Climbing.pairwise_rank (h : k.Climbing) (hsegment : IsSegment k.toStacks.waiting segment) :
    (segment.map Token.rank).Pairwise (· > ·) := by
  have hranks : segment.IsChain fun upper lower => lower.rank < upper.rank := by
    have hchain := List.IsChain.infix h.isChain_waiting hsegment.1
    refine hchain.imp_of_mem_imp fun upper lower hupper hlower hlies => ?_
    rcases hlies with rfl | rfl | hlt
    · exact absurd hupper hsegment.2
    · exact absurd hlower hsegment.2
    · exact hlt
  exact ((List.isChain_map _).2 hranks).pairwise

end Machine

theorem segment_cases {segment : List Token} (hkinds : ∀ t ∈ segment, ∃ o, t = Token.operator o)
    (hranks : (segment.map Token.rank).Pairwise (· > ·)) :
    segment = [] ∨ (∃ o, segment = [.operator o]) ∨ ∃ upper lower, segment = [.operator upper, .operator lower] ∧
      (lower = .add ∨ lower = .sub) ∧ (upper = .mul ∨ upper = .div) := by
  rcases segment with _ | ⟨t, _ | ⟨u, rest⟩⟩
  · exact .inl rfl
  · obtain ⟨o, rfl⟩ := hkinds t (by simp)
    exact .inr (.inl ⟨o, rfl⟩)
  · obtain ⟨upper, rfl⟩ := hkinds t (by simp)
    obtain ⟨lower, rfl⟩ := hkinds u (by simp)
    obtain ⟨htop, hrest⟩ := List.pairwise_cons.1 hranks
    obtain ⟨hlower, hupper⟩ := Operator.rank_lt_rank_iff.1 (htop lower.rank (by simp [Token.rank]))
    rcases rest with _ | ⟨v, rest⟩
    · exact .inr (.inr ⟨upper, lower, rfl, hlower, hupper⟩)
    · -- a third operator would have to rank below one of the lower rank
      obtain ⟨o, rfl⟩ := hkinds v (by simp)
      obtain ⟨htop, -⟩ := List.pairwise_cons.1 hrest
      obtain ⟨-, hlower'⟩ := Operator.rank_lt_rank_iff.1 (htop o.rank (by simp [Token.rank]))
      rcases hlower with rfl | rfl <;> simp at hlower'

/-- What waits on the stack once the tokens `read` are read, the top first. -/
structure StackLaw (read waiting : List Token) : Prop where
  kinds : ∀ t ∈ waiting, t = .opening ∨ ∃ o, t = .operator o
  depth : (waiting.count .opening : Int) = read.count .opening - read.count .closing
  /-- From the bottom to the top of a segment the ranks increase. -/
  ranks : ∀ segment, IsSegment waiting segment → (segment.reverse.map Token.rank).Pairwise (· < ·)
  segments : ∀ segment, IsSegment waiting segment →
    segment = [] ∨ (∃ o, segment = [.operator o]) ∨ ∃ upper lower, segment = [.operator upper, .operator lower] ∧
      (lower = .add ∨ lower = .sub) ∧ (upper = .mul ∨ upper = .div)
  length : waiting.length ≤ 3 * waiting.count .opening + 2
  /-- While no parenthesis is open, at most two operators wait. -/
  closed : .opening ∉ waiting → waiting.length ≤ 2

/-- The stacks for tokens of any kind are those of the machine, and whenever tokens are read without an error, what
waits is in this order. -/
theorem stackLaw (read : List Token) :
    Stacks.empty.run read = (Machine.empty.run read).map Machine.toStacks ∧
      ∀ s, Stacks.empty.run read = .ok s → StackLaw read s.waiting := by
  refine ⟨Stacks.run_eq read, fun s hs => ?_⟩
  rw [Stacks.run_eq] at hs
  obtain ⟨k, hk, rfl⟩ := map_eq_ok.1 hs
  have hopenings := Machine.invariant_openings.run hk rfl
  have hclimbing : k.Climbing := Machine.invariant_climbing.run hk .nil
  have hcount := k.count_opening_waiting
  have hlength : k.toStacks.waiting.length ≤ 3 * k.toStacks.waiting.count .opening + 2 := by
    have hlt := Machine.length_pending_lt hclimbing (by decide) (Machine.below_three k.pending)
    rw [hcount, Machine.toStacks, List.length_map]
    omega
  refine ⟨fun t ht => Machine.kind_of_mem_waiting ht, by omega, ?_, ?_, hlength, ?_⟩
  · intro segment hsegment
    rw [List.map_reverse, List.pairwise_reverse]
    exact hclimbing.pairwise_rank hsegment
  · intro segment hsegment
    exact segment_cases (fun t ht => Machine.exists_operator_of_mem hsegment ht) (hclimbing.pairwise_rank hsegment)
  · intro hclosed
    rw [List.count_eq_zero.2 hclosed] at hlength
    exact hlength

/-- Behind `1+2*(8-6/3*4` as much waits as one open parenthesis allows. The quotient no longer does. -/
theorem stackLaw_full :
    let read : List Token := [.number (.ofNat 1), .operator .add, .number (.ofNat 2), .operator .mul, .opening,
      .number (.ofNat 8), .operator .sub, .number (.ofNat 6), .operator .div, .number (.ofNat 3), .operator .mul,
      .number (.ofNat 4)]
    let waiting : List Token := [.operator .mul, .operator .sub, .opening, .operator .mul, .operator .add]
    Stacks.empty.run read = .ok ⟨[.ofNat 4, .ofNat 2, .ofNat 8, .ofNat 2, .ofNat 1], waiting⟩ ∧
      waiting.length = 3 * waiting.count .opening + 2 ∧ StackLaw read waiting := by
  intro read waiting
  have hrun : Stacks.empty.run read = .ok ⟨[.ofNat 4, .ofNat 2, .ofNat 8, .ofNat 2, .ofNat 1], waiting⟩ :=
    eq_ok_of_toOption (by decide +kernel)
  exact ⟨hrun, by decide, (stackLaw read).2 _ hrun⟩

end Calculator
