/-
  Calculator.Proofs.Group — parentheses around any part of a list of tokens.

  On top of an open parenthesis a machine works like an empty one, whatever operands and pending
  operators lie below: the parenthesis stops every unwinding, and as long as no operand is missing
  nothing below is taken (`run_upon`). The part between the parentheses need not be an expression, nor
  what is in front of it or behind. Only where the part by itself is malformed can it do more in
  its place than it does alone, since there it finds operands to take.

  Main statement: `groupLaw`. A part that has a value can be exchanged for it, and a division by zero in
  a part is one of the whole.
-/

import Calculator.Proofs.Machine

namespace Calculator

namespace Machine

/-- The machine on top of an open parenthesis, with `base` below that. -/
def upon (k base : Machine) : Machine := ⟨k.operands ++ base.operands, k.pending ++ .opening :: base.pending⟩

variable {base k : Machine} {t : Token} {ts : List Token}

/-! ## What is below stays as it is -/

theorem ne_error_of_bind {α β : Type} {x : Except EvalError α} {f : α → Except EvalError β} {e : EvalError}
    (h : (x >>= f) ≠ .error e) : x ≠ .error e := by
  rintro rfl
  exact h rfl

theorem unwind_upon {due : Operator → Bool} {operands : List Binary64} {pending : List Pending}
    (h : unwind due operands pending ≠ .error .malformed) :
    unwind due (operands ++ base.operands) (pending ++ .opening :: base.pending) =
      (unwind due operands pending).map (upon · base) := by
  induction pending generalizing operands with
  | nil => rfl
  | cons top pending ih =>
    cases top with
    | opening => rfl
    | operator o =>
      rw [List.cons_append]
      unfold unwind at h ⊢
      by_cases hdue : due o
      · rw [if_pos hdue] at h ⊢
        rw [if_pos hdue]
        -- with fewer than two operands the tokens are malformed without what is below
        rcases operands with _ | ⟨y, _ | ⟨x, operands⟩⟩
        · exact absurd rfl h
        · exact absurd rfl h
        · dsimp only [List.cons_append] at h ⊢
          cases ha : o.apply x y with
          | error e => rfl
          | ok value =>
            rw [ha] at h
            exact ih h
      · rw [if_neg hdue, if_neg hdue]
        rfl

theorem settle_upon {r : Nat} (h : k.settle r ≠ .error .malformed) :
    (k.upon base).settle r = (k.settle r).map (upon · base) := unwind_upon h

theorem step_upon (h : k.step t ≠ .error .malformed) : (k.upon base).step t = (k.step t).map (upon · base) := by
  cases t with
  | number x => rfl
  | opening => rfl
  | operator o =>
    rw [step_operator] at h ⊢
    rw [step_operator, settle_upon (ne_error_of_bind h)]
    cases k.settle o.rank <;> rfl
  | closing =>
    rw [step_closing] at h ⊢
    rw [step_closing, settle_upon (ne_error_of_bind h)]
    cases hm : k.settle 1 with
    | error e => rfl
    | ok m =>
      rw [hm] at h
      obtain ⟨operands, pending⟩ := m
      -- it closes a parenthesis of its own
      rcases pending with _ | ⟨_ | _, pending⟩
      · exact absurd rfl h
      · exact absurd rfl h
      · rfl

/-- Tokens that are not malformed by themselves never look below the parenthesis they stand in. -/
theorem run_upon (h : k.run ts ≠ .error .malformed) : (k.upon base).run ts = (k.run ts).map (upon · base) := by
  induction ts generalizing k with
  | nil => rfl
  | cons t ts ih =>
    rw [run_cons] at h ⊢
    rw [run_cons, step_upon (ne_error_of_bind h)]
    cases hm : k.step t with
    | error e => rfl
    | ok m =>
      rw [hm] at h
      exact ih h

/-! ## What the parentheses come to -/

/-- The parenthesis that closes applies what the end of the tokens would, and leaves their value. -/
theorem settle_upon_close (h : k.finish ≠ .error .malformed) :
    ((k.upon base).settle 1 >>= close) = k.finish.map base.push := by
  rw [finish_eq] at h ⊢
  rw [settle_upon (ne_error_of_bind h)]
  cases hm : k.settle 1 with
  | error e => rfl
  | ok m =>
    rw [hm] at h
    obtain ⟨operands, pending⟩ := m
    rcases operands with _ | ⟨value, _ | ⟨x, operands⟩⟩
    · exact absurd rfl h
    · cases pending with
      | nil => rfl
      | cons top pending => exact absurd rfl h
    · exact absurd rfl h

/-- In parentheses, tokens that are not malformed by themselves put their value on the operands of any machine. -/
theorem run_group (base : Machine) (h : evaluateTokens ts ≠ .error .malformed) :
    base.run (.opening :: ts ++ [.closing]) = (evaluateTokens ts).map base.push := by
  have hrun : empty.run ts ≠ .error .malformed := ne_error_of_bind h
  calc base.run (.opening :: ts ++ [.closing])
    _ = (empty.upon base).run ts >>= fun k => k.settle 1 >>= close := by
      have hnil (k : Machine) : k.run [] = pure k := rfl
      simp only [List.cons_append, run_cons, run_append, hnil, bind_pure, step_closing]
      rfl
    _ = (empty.run ts).map (upon · base) >>= fun k => k.settle 1 >>= close := by rw [run_upon hrun]
    _ = (evaluateTokens ts).map base.push := by
      unfold evaluateTokens at h ⊢
      cases hk : empty.run ts with
      | error e => rfl
      | ok k =>
        rw [hk] at h
        exact settle_upon_close h

/-- Of a part in parentheses only its value matters, if it has one or divides by zero. -/
theorem evaluateTokens_around (pre post : List Token) (h : evaluateTokens ts ≠ .error .malformed) :
    evaluateTokens (pre ++ .opening :: ts ++ .closing :: post) =
      empty.run pre >>= fun k => evaluateTokens ts >>= fun v => (k.push v).run post >>= finish := by
  have hgroup : pre ++ .opening :: ts ++ .closing :: post = pre ++ ((.opening :: ts ++ [.closing]) ++ post) := by simp
  rw [hgroup]
  calc evaluateTokens (pre ++ ((.opening :: ts ++ [.closing]) ++ post))
    _ = empty.run pre >>= fun k => k.run (.opening :: ts ++ [.closing]) >>= fun m => m.run post >>= finish := by
      simp only [evaluateTokens, run_append, bind_assoc]
    _ = empty.run pre >>= fun k => (evaluateTokens ts).map k.push >>= fun m => m.run post >>= finish := by
      simp only [run_group _ h]
    _ = empty.run pre >>= fun k => evaluateTokens ts >>= fun v => (k.push v).run post >>= finish := by
      cases evaluateTokens ts <;> rfl

end Machine

/-- What a part of the tokens that stands in parentheses does to the whole. -/
structure GroupLaw (pre part post : List Token) : Prop where
  /-- If the part has a value, that can stand in its place. -/
  value : ∀ v, evaluateTokens part = .ok v →
    evaluateTokens (pre ++ .opening :: part ++ .closing :: post) = evaluateTokens (pre ++ .number v :: post)
  /-- If it divides by zero, so does the whole, unless the tokens in front of it come to an error before. -/
  division : evaluateTokens part = .error .divisionByZero →
    ∀ k, Machine.empty.run pre = .ok k → evaluateTokens (pre ++ .opening :: part ++ .closing :: post) = .error .divisionByZero
  front : evaluateTokens part = .error .divisionByZero →
    ∀ e, Machine.empty.run pre = .error e → evaluateTokens (pre ++ .opening :: part ++ .closing :: post) = .error e

theorem groupLaw (pre part post : List Token) : GroupLaw pre part post where
  value := by
    intro v hv
    rw [Machine.evaluateTokens_around pre post (by simp [hv]), hv]
    simp only [evaluateTokens, Machine.run_append, Machine.run_cons, bind_assoc]
    rfl
  division := by
    intro hdiv k hk
    rw [Machine.evaluateTokens_around pre post (by simp [hdiv]), hdiv, hk]
    rfl
  front := by
    intro hdiv e he
    rw [Machine.evaluateTokens_around pre post (by simp [hdiv]), he]
    rfl

end Calculator
