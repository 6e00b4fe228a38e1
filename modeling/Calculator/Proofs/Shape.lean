/-
  Calculator.Proofs.Shape — what does not depend on the numbers among the tokens.

  Two machines that read tokens of the same shape, with other numbers in them, hold as many operands and wait for the
  same operators (`Abreast`). Each move keeps that up, since only an application looks at the operands and only a
  division can be refused for what they are. So the two runs end in the same way, unless one of them divides by
  zero (`Lockstep`), and always where nothing is divided.

  Main statement: `shapeLaw`.
-/

import Mathlib.Data.List.Forall2
import Calculator.Proofs.Machine

namespace Calculator

/-- Tokens that differ only in a number, if at all. -/
inductive Token.SameShape : Token → Token → Prop where
  | number (x y : Binary64) : SameShape (.number x) (.number y)
  | operator (o : Operator) : SameShape (.operator o) (.operator o)
  | opening : SameShape .opening .opening
  | closing : SameShape .closing .closing

/-! ## Two computations side by side -/

/-- Two computations that both come to a result, and then to related ones, or both find their tokens malformed. If
there is something to divide, either of them may divide by zero instead, whatever the other does. -/
inductive Lockstep {α β : Type} (Divides : Prop) (R : α → β → Prop) : Except EvalError α → Except EvalError β → Prop where
  | ok {a : α} {b : β} (h : R a b) : Lockstep Divides R (.ok a) (.ok b)
  | malformed : Lockstep Divides R (.error .malformed) (.error .malformed)
  | left {y : Except EvalError β} (h : Divides) : Lockstep Divides R (.error .divisionByZero) y
  | right {x : Except EvalError α} (h : Divides) : Lockstep Divides R x (.error .divisionByZero)

theorem Lockstep.bind {α β γ δ : Type} {Divides : Prop} {R : α → β → Prop} {S : γ → δ → Prop} {x : Except EvalError α}
    {y : Except EvalError β} {f : α → Except EvalError γ} {g : β → Except EvalError δ} (h : Lockstep Divides R x y)
    (hfg : ∀ a b, R a b → Lockstep Divides S (f a) (g b)) : Lockstep Divides S (x >>= f) (y >>= g) := by
  cases h with
  | ok h => exact hfg _ _ h
  | malformed => exact .malformed
  | left h => exact .left h
  | right h => exact .right h

namespace Machine

variable {Divides : Prop}

/-- The machines hold as many operands and wait for the same, for a division only if there is something to divide. -/
structure Abreast (Divides : Prop) (k l : Machine) : Prop where
  length : k.operands.length = l.operands.length
  pending : k.pending = l.pending
  division : .operator .div ∈ k.pending → Divides

theorem lockstep_apply {o : Operator} (h : o = .div → Divides) (x y x' y' : Binary64) :
    Lockstep Divides (fun _ _ => True) (o.apply x y) (o.apply x' y') := by
  cases o with
  | add => exact .ok trivial
  | sub => exact .ok trivial
  | mul => exact .ok trivial
  | div =>
    by_cases hy : y.isZero
    · rw [Operator.apply_div_of_isZero hy]
      exact .left (h rfl)
    by_cases hy' : y'.isZero
    · rw [Operator.apply_div_of_isZero hy']
      exact .right (h rfl)
    · rw [Operator.apply_div_of_not_isZero hy, Operator.apply_div_of_not_isZero hy']
      exact .ok trivial

/-- The induction is on what is pending: the operands below are as many on both sides, and so are missing on both. -/
theorem lockstep_unwind (due : Operator → Bool) {pending : List Pending} (h : .operator .div ∈ pending → Divides)
    {xs ys : List Binary64} (hlength : xs.length = ys.length) :
    Lockstep Divides (Abreast Divides) (unwind due xs pending) (unwind due ys pending) := by
  induction pending generalizing xs ys with
  | nil => exact .ok ⟨hlength, rfl, h⟩
  | cons top pending ih =>
    cases top with
    | opening => exact .ok ⟨hlength, rfl, h⟩
    | operator o =>
      by_cases hdue : due o
      · rcases xs with _ | ⟨y, _ | ⟨x, xs⟩⟩
        · rw [unwind_missing hdue (by simp), unwind_missing hdue (by simp [← hlength])]
          exact .malformed
        · rw [unwind_missing hdue (by simp), unwind_missing hdue (by simp [← hlength])]
          exact .malformed
        · obtain ⟨y', ys, rfl⟩ := List.exists_cons_of_length_eq_add_one hlength.symm
          obtain ⟨x', ys, rfl⟩ := List.exists_cons_of_length_eq_add_one (Nat.succ.inj hlength).symm
          rw [unwind_apply hdue, unwind_apply hdue]
          have happly := lockstep_apply (o := o) (fun ho => h (ho ▸ List.mem_cons_self)) x y x' y'
          refine happly.bind fun value value' _ => ih (fun hmem => h (List.mem_cons_of_mem _ hmem)) ?_
          simpa using hlength
      · rw [unwind_of_not_due hdue, unwind_of_not_due hdue]
        exact .ok ⟨hlength, rfl, h⟩

namespace Abreast

variable {k l : Machine}

theorem settle (h : Abreast Divides k l) (r : Nat) : Lockstep Divides (Abreast Divides) (k.settle r) (l.settle r) := by
  unfold Machine.settle
  rw [← h.pending]
  exact lockstep_unwind _ h.division h.length

theorem close (h : Abreast Divides k l) : Lockstep Divides (Abreast Divides) k.close l.close := by
  unfold Machine.close
  rw [← h.pending]
  split
  · next pending hpending =>
    exact .ok ⟨h.length, rfl, fun hmem => h.division (hpending ▸ List.mem_cons_of_mem _ hmem)⟩
  · exact .malformed

theorem only (h : Abreast Divides k l) : Lockstep Divides (fun _ _ => True) k.only l.only := by
  obtain ⟨xs, pending⟩ := k
  obtain ⟨ys, pending'⟩ := l
  obtain rfl : pending = pending' := h.pending
  have hlength : xs.length = ys.length := h.length
  rcases xs with _ | ⟨x, _ | ⟨x', xs⟩⟩
  · obtain rfl := List.eq_nil_of_length_eq_zero hlength.symm
    exact .malformed
  · obtain ⟨y, rfl⟩ := List.length_eq_one_iff.1 hlength.symm
    cases pending with
    | nil => exact .ok trivial
    | cons top pending => exact .malformed
  · obtain ⟨y, ys, rfl⟩ := List.exists_cons_of_length_eq_add_one hlength.symm
    obtain ⟨y', ys, rfl⟩ := List.exists_cons_of_length_eq_add_one (Nat.succ.inj hlength).symm
    exact .malformed

theorem step (h : Abreast Divides k l) {t u : Token} (htu : t.SameShape u) (ht : t = .operator .div → Divides) :
    Lockstep Divides (Abreast Divides) (k.step t) (l.step u) := by
  cases htu with
  | number x y => exact .ok ⟨congrArg (· + 1) h.length, h.pending, h.division⟩
  | opening => exact .ok ⟨h.length, congrArg (.opening :: ·) h.pending, by simpa using h.division⟩
  | operator o =>
    rw [step_operator, step_operator]
    refine (h.settle o.rank).bind fun k l h => .ok ⟨h.length, congrArg (Pending.operator o :: ·) h.pending, ?_⟩
    intro hmem
    rcases List.mem_cons.1 hmem with hdiv | hmem
    · cases hdiv
      exact ht rfl
    · exact h.division hmem
  | closing =>
    rw [step_closing, step_closing]
    exact (h.settle 1).bind fun k l h => h.close

theorem run (h : Abreast Divides k l) {ts us : List Token} (htu : List.Forall₂ Token.SameShape ts us)
    (hts : .operator .div ∈ ts → Divides) : Lockstep Divides (Abreast Divides) (k.run ts) (l.run us) := by
  induction htu generalizing k l with
  | nil => exact .ok h
  | cons ht _ ih =>
    rw [run_cons, run_cons]
    refine (h.step ht fun hdiv => hts (hdiv ▸ List.mem_cons_self)).bind fun k l h => ?_
    exact ih h fun hmem => hts (List.mem_cons_of_mem _ hmem)

theorem finish (h : Abreast Divides k l) : Lockstep Divides (fun _ _ => True) k.finish l.finish := by
  rw [finish_eq, finish_eq]
  exact (h.settle 1).bind fun k l h => h.only

end Abreast

end Machine

/-- Tokens of the same shape are evaluated side by side. -/
theorem lockstep_evaluateTokens {ts us : List Token} (h : List.Forall₂ Token.SameShape ts us) :
    Lockstep (.operator .div ∈ ts) (fun _ _ => True) (evaluateTokens ts) (evaluateTokens us) := by
  have hempty : Machine.Abreast (.operator .div ∈ ts) .empty .empty := ⟨rfl, rfl, nofun⟩
  exact (hempty.run h id).bind fun k l h => h.finish

/-! ## What the shape decides -/

/-- What is known of the one list of tokens from the other. -/
structure ShapeLaw (ts us : List Token) : Prop where
  ok : ∀ x, evaluateTokens ts = .ok x → (∃ y, evaluateTokens us = .ok y) ∨ evaluateTokens us = .error .divisionByZero
  malformed : evaluateTokens ts = .error .malformed →
    evaluateTokens us = .error .malformed ∨ evaluateTokens us = .error .divisionByZero
  undivided : .operator .div ∉ ts →
    (∃ x y, evaluateTokens ts = .ok x ∧ evaluateTokens us = .ok y) ∨
      evaluateTokens ts = .error .malformed ∧ evaluateTokens us = .error .malformed

/-- Whether tokens have a value depends on the numbers among them only where these come to a division by zero. -/
theorem shapeLaw {ts us : List Token} (h : List.Forall₂ Token.SameShape ts us) : ShapeLaw ts us := by
  have hlockstep := lockstep_evaluateTokens h
  generalize hts : evaluateTokens ts = x at hlockstep
  generalize hus : evaluateTokens us = y at hlockstep
  cases hlockstep with
  | ok =>
    exact ⟨fun _ _ => .inl ⟨_, hus⟩, by simp [hts], fun _ => .inl ⟨_, _, hts, hus⟩⟩
  | malformed => exact ⟨by simp [hts], fun _ => .inl hus, fun _ => .inr ⟨hts, hus⟩⟩
  | left hdiv => exact ⟨by simp [hts], by simp [hts], fun hno => absurd hdiv hno⟩
  | right hdiv => exact ⟨fun _ _ => .inr hus, fun _ => .inr hus, fun hno => absurd hdiv hno⟩

theorem evaluateTokens_binary (x : Binary64) (o : Operator) (y : Binary64) :
    evaluateTokens [.number x, .operator o, .number y] = o.apply x y := by
  have hx : Machine.Computes o.rank [.number x] (.ok x) := (Machine.Computes.number x).lower (by cases o <;> decide)
  have hy : Machine.Computes (o.rank + 1) [.number y] (.ok y) := (Machine.Computes.number y).lower (by cases o <;> decide)
  exact ((hx.operator rfl hy).lower (by cases o <;> decide)).evaluateTokens_eq

/-- Zero and infinity behind a division: the one divides by zero, and the other has a value. -/
theorem shapeLaw_division :
    let tokens (x : Binary64) : List Token := [.number (.ofNat 1), .operator .div, .number x]
    List.Forall₂ Token.SameShape (tokens (.infinity true)) (tokens (.ofNat 0)) ∧
      ShapeLaw (tokens (.infinity true)) (tokens (.ofNat 0)) ∧
      evaluateTokens (tokens (.infinity true)) = .ok (-.ofNat 0) ∧
      evaluateTokens (tokens (.ofNat 0)) = .error .divisionByZero := by
  have h : List.Forall₂ Token.SameShape [.number (.ofNat 1), .operator .div, .number (.infinity true)]
      [.number (.ofNat 1), .operator .div, .number (.ofNat 0)] :=
    .cons (.number _ _) (.cons (.operator _) (.cons (.number _ _) .nil))
  refine ⟨h, shapeLaw h, eq_ok_of_toOption (by decide +kernel), ?_⟩
  rw [evaluateTokens_binary]
  exact Operator.apply_div_of_isZero (by decide +kernel)

end Calculator
