/-
  Calculator.Proofs.Machine — how the two stacks work through a list of tokens.

  The machine applies an operator late: when one of no higher rank arrives, or a parenthesis
  closes, or the tokens end. `settle r` is what such an arrival does. A list of tokens stands
  for a value at rank `r` (`Computes`) if reading it and settling `r` puts that value on the
  operands and leaves the rest of the machine alone, wherever no pending operator of rank `r`
  or above is on top. That is kept by an operator of rank `r` between a list at rank `r` and
  one at rank `r + 1`, and by parentheses, so that the machine does what the grammar says.

  Of tokens in any order: a property that each single move preserves (`Invariant`) holds after
  every run. So those that have a value hold one number more than operators (`balance_eq_one`),
  since every move keeps the `surplus` at the balance of what was read.
-/

import Calculator.Machine
import Calculator.Proofs.Except

namespace Calculator.Machine

def push (k : Machine) (x : Binary64) : Machine := { k with operands := x :: k.operands }

def await (k : Machine) (o : Operator) : Machine := { k with pending := .operator o :: k.pending }

/-- Applies the pending operators of rank `r` and above. -/
def settle (r : Nat) (k : Machine) : Except EvalError Machine := unwind (fun top => r ≤ top.rank) k.operands k.pending

def close (k : Machine) : Except EvalError Machine :=
  match k.pending with
  | .opening :: pending => pure { k with pending }
  | _ => throw .malformed

def only (k : Machine) : Except EvalError Binary64 :=
  match k with
  | ⟨[value], []⟩ => pure value
  | _ => throw .malformed

/-- No operator of rank `r` or above is on top. -/
def Below (r : Nat) (pending : List Pending) : Prop := ∀ o, pending.head? = some (.operator o) → o.rank < r

theorem below_three (pending : List Pending) : Below 3 pending := by
  intro o _
  cases o <;> decide

/-! ## Steps -/

theorem one_le_rank : (fun top : Operator => decide (1 ≤ top.rank)) = fun _ => true := by
  funext o
  cases o <;> rfl

theorem step_operator (k : Machine) (o : Operator) :
    k.step (.operator o) = k.settle o.rank >>= fun k => .ok (k.await o) := rfl

theorem step_closing (k : Machine) : k.step .closing = k.settle 1 >>= close := by
  rw [step, settle, one_le_rank]
  rfl

theorem finish_eq (k : Machine) : k.finish = k.settle 1 >>= only := by
  rw [finish, settle, one_le_rank]
  rfl

theorem run_append (k : Machine) (ts us : List Token) : k.run (ts ++ us) = k.run ts >>= fun k => k.run us :=
  List.foldlM_append

theorem run_cons (k : Machine) (t : Token) (ts : List Token) : k.run (t :: ts) = k.step t >>= fun k => k.run ts :=
  List.foldlM_cons

/-! ## Settling -/

section

variable {due : Operator → Bool} {o : Operator} {operands : List Binary64} {pending : List Pending}

theorem unwind_apply (h : due o) (x y : Binary64) :
    unwind due (y :: x :: operands) (.operator o :: pending) =
      o.apply x y >>= fun value => unwind due (value :: operands) pending := by
  rw [unwind, if_pos h]
  cases o.apply x y <;> rfl

theorem unwind_missing (h : due o) (hlt : operands.length < 2) :
    unwind due operands (.operator o :: pending) = .error .malformed := by
  rcases operands with _ | ⟨y, _ | ⟨x, operands⟩⟩
  · exact if_pos h
  · exact if_pos h
  · exact absurd hlt (by simp)

theorem unwind_of_not_due (h : ¬ due o) :
    unwind due operands (.operator o :: pending) = .ok ⟨operands, .operator o :: pending⟩ := if_neg h

end

theorem settle_of_below {r : Nat} {k : Machine} (h : Below r k.pending) : k.settle r = .ok k := by
  obtain ⟨operands, pending⟩ := k
  rcases pending with _ | ⟨_ | _, pending⟩
  · rfl
  · next o =>
    exact unwind_of_not_due (by simpa using h o rfl)
  · rfl

theorem settle_await {r : Nat} {o : Operator} (h : r ≤ o.rank) (k : Machine) (x y : Binary64) :
    (((k.push x).await o).push y).settle r = o.apply x y >>= fun value => (k.push value).settle r :=
  unwind_apply (decide_eq_true h) x y

/-- Settling a lower rank goes on where settling a higher one stopped. -/
theorem settle_settle {r s : Nat} (h : r ≤ s) (k : Machine) : (k.settle s >>= settle r) = k.settle r := by
  obtain ⟨operands, pending⟩ := k
  simp only [settle]
  induction pending generalizing operands with
  | nil => rfl
  | cons top pending ih =>
    cases top with
    | opening => rfl
    | operator o =>
      by_cases hs : s ≤ o.rank
      · have hr : r ≤ o.rank := Nat.le_trans h hs
        rcases operands with _ | ⟨y, _ | ⟨x, operands⟩⟩
        · rw [unwind_missing (decide_eq_true hs) (by simp), unwind_missing (decide_eq_true hr) (by simp)]
          rfl
        · rw [unwind_missing (decide_eq_true hs) (by simp), unwind_missing (decide_eq_true hr) (by simp)]
          rfl
        · rw [unwind_apply (decide_eq_true hs), unwind_apply (decide_eq_true hr)]
          cases o.apply x y with
          | error e => rfl
          | ok value => exact ih (value :: operands)
      · rw [unwind_of_not_due (by simpa using hs)]
        rfl

/-! ## Lists of tokens that stand for a value -/

/-- Wherever no operator of rank `r` or above is on top, reading the tokens and settling `r`
puts the value on the operands. -/
def Computes (r : Nat) (tokens : List Token) (value : Except EvalError Binary64) : Prop :=
  ∀ k : Machine, Below r k.pending → (k.run tokens >>= settle r) = value.map k.push

namespace Computes

variable {r : Nat} {ts us : List Token} {v w : Except EvalError Binary64}

theorem number (x : Binary64) : Computes 3 [.number x] (.ok x) := fun _ _ => settle_of_below (below_three _)

/-- What stands for a value at some rank does so at any lower one. -/
theorem lower {s : Nat} (h : r ≤ s) (hv : Computes s ts v) : Computes r ts v := by
  intro k hk
  have hs : Below s k.pending := fun o ho => Nat.lt_of_lt_of_le (hk o ho) h
  calc k.run ts >>= settle r
    _ = k.run ts >>= fun k => k.settle s >>= settle r := by simp only [settle_settle h]
    _ = (k.run ts >>= settle s) >>= settle r := (bind_assoc ..).symm
    _ = v.map k.push >>= settle r := by rw [hv k hs]
    _ = v.map k.push := by
      cases v with
      | error e => rfl
      | ok x => exact settle_of_below hk

/-- An operator stands for what it makes of the values on both sides, the right one of which
binds tighter. -/
theorem operator {o : Operator} (ho : o.rank = r) (hv : Computes r ts v) (hw : Computes (r + 1) us w) :
    Computes r (ts ++ .operator o :: us) (v >>= fun x => w >>= o.apply x) := by
  intro k hk
  have right (x : Binary64) : (((k.push x).await o).run us >>= settle r) = (w >>= o.apply x).map k.push := by
    have hb : Below (r + 1) ((k.push x).await o).pending := by
      rintro _ ⟨⟩
      exact Nat.lt_succ_of_le (Nat.le_of_eq ho)
    calc ((k.push x).await o).run us >>= settle r
      _ = (((k.push x).await o).run us >>= settle (r + 1)) >>= settle r := by
        simp only [bind_assoc, settle_settle (Nat.le_succ r)]
      _ = w.map ((k.push x).await o).push >>= settle r := by rw [hw _ hb]
      _ = (w >>= o.apply x).map k.push := by
        cases w with
        | error e => rfl
        | ok y =>
          show settle r (((k.push x).await o).push y) = (o.apply x y).map k.push
          rw [settle_await (Nat.le_of_eq ho.symm)]
          cases o.apply x y with
          | error e => rfl
          | ok value => exact settle_of_below hk
  calc k.run (ts ++ .operator o :: us) >>= settle r
    _ = (k.run ts >>= settle r) >>= fun k => (k.await o).run us >>= settle r := by
      simp only [run_append, run_cons, step_operator, ho, bind_assoc]
      rfl
    _ = v.map k.push >>= fun k => (k.await o).run us >>= settle r := by rw [hv k hk]
    _ = (v >>= fun x => w >>= o.apply x).map k.push := by
      cases v with
      | error e => rfl
      | ok x => exact right x

/-- Parentheses stand for what is between them, at any rank. -/
theorem group (hv : Computes 1 ts v) : Computes 3 (.opening :: ts ++ [.closing]) v := by
  intro k _
  let inner : Machine := { k with pending := .opening :: k.pending }
  calc k.run (.opening :: ts ++ [.closing]) >>= settle 3
    _ = (inner.run ts >>= settle 1) >>= fun k => close k >>= settle 3 := by
      simp only [List.cons_append, run_cons, run_append, step_closing, bind_assoc]
      rfl
    _ = v.map inner.push >>= fun k => close k >>= settle 3 := by rw [hv inner (by rintro _ ⟨⟩)]
    _ = v.map k.push := by
      cases v with
      | error e => rfl
      | ok x => exact settle_of_below (below_three _)

theorem evaluateTokens_eq (hv : Computes 1 ts v) : evaluateTokens ts = v := by
  calc evaluateTokens ts
    _ = (empty.run ts >>= settle 1) >>= fun k => k.only := by
      simp only [evaluateTokens, funext finish_eq, bind_assoc]
    _ = v.map empty.push >>= fun k => k.only := by rw [hv empty (by rintro _ ⟨⟩)]
    _ = v := by cases v <;> rfl

end Computes

/-! ## What every move preserves -/

def enter (k : Machine) : Machine := { k with pending := .opening :: k.pending }

/-- Unwinding preserves what an application of any operator does, and stops at one that is not due. -/
theorem unwind_invariant {P : Machine → Prop} {due : Operator → Bool} {k m : Machine} (h : unwind due k.operands k.pending = .ok m)
    (happly : ∀ (k : Machine) (o : Operator) (x y value : Binary64), o.apply x y = .ok value →
      P (((k.push x).await o).push y) → P (k.push value)) (hP : P k) :
    P m ∧ ∀ o, m.pending.head? = some (.operator o) → ¬ due o := by
  obtain ⟨operands, pending⟩ := k
  induction pending generalizing operands with
  | nil =>
    cases h
    exact ⟨hP, nofun⟩
  | cons top pending ih =>
    cases top with
    | opening =>
      cases h
      exact ⟨hP, nofun⟩
    | operator o =>
      by_cases hdue : due o
      · rcases operands with _ | ⟨y, _ | ⟨x, operands⟩⟩
        · rw [unwind_missing hdue (by simp)] at h
          cases h
        · rw [unwind_missing hdue (by simp)] at h
          cases h
        · rw [unwind_apply hdue] at h
          obtain ⟨value, hvalue, h⟩ := bind_eq_ok.1 h
          exact ih (value :: operands) h (happly ⟨operands, pending⟩ o x y value hvalue hP)
      · rw [unwind_of_not_due hdue] at h
        cases h
        refine ⟨hP, ?_⟩
        rintro _ ⟨⟩
        exact hdue

theorem not_due_of_unwind {due : Operator → Bool} {k m : Machine} (h : unwind due k.operands k.pending = .ok m) {o : Operator}
    (ho : m.pending.head? = some (.operator o)) : ¬ due o :=
  (unwind_invariant (P := fun _ => True) h (fun _ _ _ _ _ _ _ => trivial) trivial).2 o ho

theorem below_settle {r : Nat} {k m : Machine} (h : k.settle r = .ok m) : Below r m.pending := by
  intro o ho
  exact Nat.lt_of_not_le fun hle => not_due_of_unwind h ho (decide_eq_true hle)

/-- A property of the tokens read and the machine that has read them, which every move of the machine
preserves: taking a token in, once the operators it finds pending are applied, and applying one of those. -/
structure Invariant (P : List Token → Machine → Prop) : Prop where
  number : ∀ (read : List Token) (k : Machine) (x : Binary64), P read k → P (read ++ [.number x]) (k.push x)
  opening : ∀ (read : List Token) (k : Machine), P read k → P (read ++ [.opening]) k.enter
  operator : ∀ (read : List Token) (k : Machine) (o : Operator), P read k → Below o.rank k.pending →
    P (read ++ [.operator o]) (k.await o)
  closing : ∀ (read : List Token) (k : Machine), P read k.enter → P (read ++ [.closing]) k
  apply : ∀ (read : List Token) (k : Machine) (o : Operator) (x y value : Binary64), o.apply x y = .ok value →
    P read (((k.push x).await o).push y) → P read (k.push value)

namespace Invariant

variable {P : List Token → Machine → Prop} (hP : Invariant P) {k m : Machine} {read : List Token}

include hP

theorem settle {r : Nat} (h : k.settle r = .ok m) (hk : P read k) : P read m ∧ Below r m.pending := by
  obtain ⟨hm, -⟩ := unwind_invariant h (hP.apply read) hk
  exact ⟨hm, below_settle h⟩

theorem step {t : Token} (h : k.step t = .ok m) (hk : P read k) : P (read ++ [t]) m := by
  cases t with
  | number x =>
    cases h
    exact hP.number read k x hk
  | opening =>
    cases h
    exact hP.opening read k hk
  | operator o =>
    rw [step_operator] at h
    obtain ⟨k', hk', h⟩ := bind_eq_ok.1 h
    cases h
    obtain ⟨hsettled, hbelow⟩ := hP.settle hk' hk
    exact hP.operator read k' o hsettled hbelow
  | closing =>
    rw [step_closing] at h
    obtain ⟨k', hk', h⟩ := bind_eq_ok.1 h
    obtain ⟨hsettled, -⟩ := hP.settle hk' hk
    unfold close at h
    split at h
    · next pending hpending =>
      cases h
      refine hP.closing read _ ?_
      rwa [enter, ← hpending]
    · cases h

theorem run_append {ts : List Token} (h : k.run ts = .ok m) (hk : P read k) : P (read ++ ts) m := by
  induction ts generalizing k read with
  | nil =>
    cases h
    rwa [List.append_nil]
  | cons t ts ih =>
    rw [run_cons] at h
    obtain ⟨k', hk', h⟩ := bind_eq_ok.1 h
    have hts := ih h (hP.step hk' hk)
    rwa [List.append_assoc] at hts

/-- What holds at the start holds after every run from there. -/
theorem run {ts : List Token} (h : empty.run ts = .ok m) (hempty : P [] empty) : P ts m := hP.run_append h hempty

/-- What holds at the start holds of the value of the tokens, alone on the operands. -/
theorem evaluateTokens {ts : List Token} {v : Binary64} (h : evaluateTokens ts = .ok v) (hempty : P [] empty) :
    P ts ⟨[v], []⟩ := by
  obtain ⟨k, hk, hv⟩ := bind_eq_ok.1 h
  rw [finish_eq] at hv
  obtain ⟨m, hm, hv⟩ := bind_eq_ok.1 hv
  obtain ⟨hsettled, -⟩ := hP.settle hm (hP.run hk hempty)
  unfold only at hv
  split at hv
  · cases hv
    exact hsettled
  · cases hv

end Invariant

/-! ## One operand more than operators -/

/-- The numbers among the tokens, less the operators. -/
def balance : List Token → Int
  | [] => 0
  | .number _ :: ts => balance ts + 1
  | .operator _ :: ts => balance ts - 1
  | .opening :: ts | .closing :: ts => balance ts

theorem balance_append (ts us : List Token) : balance (ts ++ us) = balance ts + balance us := by
  induction ts with
  | nil => exact (Int.zero_add _).symm
  | cons t ts ih =>
    rw [List.cons_append]
    cases t with
    | number x =>
      simp only [balance, ih]
      omega
    | operator o =>
      simp only [balance, ih]
      omega
    | opening => exact ih
    | closing => exact ih

/-- The operands that are left once every pending operator is applied. -/
def surplus (k : Machine) : Int := k.operands.length - k.pending.countP (· != .opening)

theorem surplus_push (k : Machine) (x : Binary64) : (k.push x).surplus = k.surplus + 1 := by
  simp only [surplus, push, List.length_cons]
  omega

theorem surplus_await (k : Machine) (o : Operator) : (k.await o).surplus = k.surplus - 1 := by
  have : (Pending.operator o :: k.pending).countP (· != .opening) = k.pending.countP (· != .opening) + 1 :=
    List.countP_cons_of_pos rfl
  simp only [surplus, await]
  omega

theorem surplus_enter (k : Machine) : k.enter.surplus = k.surplus := rfl

/-- The surplus is the balance of what was read. -/
theorem invariant_surplus : Invariant fun read k => k.surplus = balance read where
  number := by
    intro read k x h
    rw [surplus_push, h, balance_append]
    rfl
  opening := by
    intro read k h
    rw [surplus_enter, h, balance_append]
    exact (Int.add_zero _).symm
  operator := by
    intro read k o h _
    rw [surplus_await, h, balance_append]
    rfl
  closing := by
    intro read k h
    rw [← surplus_enter, h, balance_append]
    exact (Int.add_zero _).symm
  apply := by
    intro read k o x y value _ h
    rw [surplus_push, surplus_await, surplus_push] at h
    rw [surplus_push]
    omega

/-- Tokens that have a value have one number more than operators. -/
theorem balance_eq_one {ts : List Token} {v : Binary64} (h : evaluateTokens ts = .ok v) : balance ts = 1 :=
  (invariant_surplus.evaluateTokens h rfl).symm

end Calculator.Machine
