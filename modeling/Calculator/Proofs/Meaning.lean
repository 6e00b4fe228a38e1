/-
  Calculator.Proofs.Meaning — what is calculated from the text of a phrase.

  If each of its literals spells a finite double, the text of a phrase passes the form check,
  is cut into the lexemes of the phrase, and computes its value on the two stacks
  (`calculate_text`). A readable phrase has no value just where it divides by a zero of either
  sign (`missingJust_value`).
-/

import Calculator.Expression
import Calculator.Proofs.Machine
import Calculator.Proofs.Token

namespace Calculator

def Literal.ofDigit (c : Char) (h : c.isDigit) : Literal := ⟨[c], none, by simpa using h, nofun, by simp, nofun⟩

namespace Phrase

def literals {level : Level} : Phrase level → List Literal
  | literal l | negated l => [l]
  | group x | ofFactor x | ofProduct x => x.literals
  | multiplicative x _ _ y | additive x _ _ y => x.literals ++ y.literals

/-- The divisions of a phrase, each as its two sides. -/
def divisions {level : Level} : Phrase level → List (Phrase .product × Phrase .factor)
  | literal _ | negated _ => []
  | group x | ofFactor x | ofProduct x => x.divisions
  | multiplicative x o _ y => x.divisions ++ y.divisions ++ if o = .div then [(x, y)] else []
  | additive x _ _ y => x.divisions ++ y.divisions

def DividesByZero {level : Level} (x : Phrase level) : Prop :=
  ∃ d ∈ x.divisions, ∃ u v, d.1.value = .ok u ∧ d.2.value = .ok v ∧ v.isZero

def Readable {level : Level} (x : Phrase level) : Prop := ∀ l ∈ x.literals, l.toBinary64.isFinite

def tokens {level : Level} : Phrase level → List Token
  | literal l => [.number l.toBinary64]
  | negated l => [.number (-l.toBinary64)]
  | group x => .opening :: x.tokens ++ [.closing]
  | ofFactor x | ofProduct x => x.tokens
  | multiplicative x o _ y | additive x o _ y => x.tokens ++ .operator o :: y.tokens

/-- The rank at which the operators of a level stop the machine. -/
def Level.rank : Level → Nat
  | .sum => 1
  | .product => 2
  | .factor => 3

variable {level : Level}

theorem ofLexemes_lexemes {x : Phrase level} (h : x.Readable) : Token.ofLexemes x.lexemes = .ok x.tokens := by
  induction x with
  | literal l => exact Token.ofLexemes_numeral (Literal.readNumeral_text (h l List.mem_cons_self))
  | negated l => exact Token.ofLexemes_numeral (Literal.readNumeral_sign_text (h l List.mem_cons_self))
  | group x ih => exact Token.ofLexemes_cons.2 ⟨_, _, rfl, Token.ofLexemes_append (ih h) rfl, rfl⟩
  | ofFactor x ih => exact ih h
  | ofProduct x ih => exact ih h
  | multiplicative x o ho y ihx ihy
  | additive x o ho y ihx ihy =>
    obtain ⟨hx, hy⟩ := List.forall_mem_append.1 h
    exact Token.ofLexemes_append (ihx hx) (Token.ofLexemes_cons.2 ⟨_, _, rfl, ihy hy, rfl⟩)

theorem exists_mem_lexemes_of_mem_literals {x : Phrase level} {l : Literal} (h : l ∈ x.literals) :
    ∃ negated, .numeral negated l.text ∈ x.lexemes := by
  induction x with
  | literal l =>
    cases List.mem_singleton.1 h
    exact ⟨false, List.mem_singleton_self _⟩
  | negated l =>
    cases List.mem_singleton.1 h
    exact ⟨true, List.mem_singleton_self _⟩
  | group x ih =>
    obtain ⟨negated, h⟩ := ih h
    exact ⟨negated, by simp [lexemes, h]⟩
  | ofFactor x ih => exact ih h
  | ofProduct x ih => exact ih h
  | multiplicative x o ho y ihx ihy
  | additive x o ho y ihx ihy =>
    rcases List.mem_append.1 h with h | h
    · obtain ⟨negated, h⟩ := ihx h
      exact ⟨negated, List.mem_append_left _ h⟩
    · obtain ⟨negated, h⟩ := ihy h
      exact ⟨negated, List.mem_append_right _ (List.mem_cons_of_mem _ h)⟩

/-- Only of a readable phrase are there tokens. -/
theorem readable_of_ofLexemes {x : Phrase level} {ts : List Token}
    (h : Token.ofLexemes x.lexemes = .ok ts) : x.Readable := by
  intro l hl
  obtain ⟨negated, hmem⟩ := exists_mem_lexemes_of_mem_literals hl
  obtain ⟨t, ht⟩ := Token.exists_ofLexeme_of_mem h _ hmem
  obtain ⟨v, hv, -⟩ := Token.ofLexeme_numeral.1 ht
  exact Literal.isFinite_of_readNumeral hv

/-- The two stacks give a phrase its value. -/
theorem computes_tokens {x : Phrase level} (h : x.Readable) : Machine.Computes level.rank x.tokens x.value := by
  induction x with
  | literal l =>
    rw [value, Literal.readNumeral_text (h l List.mem_cons_self)]
    exact .number _
  | negated l =>
    rw [value, Literal.readNumeral_sign_text (h l List.mem_cons_self)]
    exact .number _
  | group x ih => exact (ih h).group
  | ofFactor x ih => exact (ih h).lower (by decide)
  | ofProduct x ih => exact (ih h).lower (by decide)
  | multiplicative x o ho y ihx ihy
  | additive x o ho y ihx ihy =>
    obtain ⟨hx, hy⟩ := List.forall_mem_append.1 h
    exact (ihx hx).operator ho (ihy hy)

theorem evaluate_text {x : Phrase .sum} (h : x.Readable) : evaluate x.text = x.value := by
  have ht : tokenize x.text = .ok x.tokens := by
    rw [tokenize, x.cut_text]
    exact ofLexemes_lexemes h
  rw [evaluate, ht]
  exact (computes_tokens h).evaluateTokens_eq

/-! ## Divisions by zero -/

/-- A value that is missing only for a division by zero, and just where `P` holds. -/
def MissingJust (P : Prop) (value : Except EvalError Binary64) : Prop :=
  (∃ v, value = .ok v ∧ ¬ P) ∨ value = .error .divisionByZero ∧ P

theorem apply_eq_error_iff {o : Operator} {u v : Binary64} {e : EvalError} :
    o.apply u v = .error e ↔ (o = .div ∧ v.isZero) ∧ e = .divisionByZero := by
  cases o with
  | div =>
    unfold Operator.apply
    by_cases h : v.isZero = true
    · simp [h, eq_comm]
    · simp [h]
  | add => simp [Operator.apply]
  | sub => simp [Operator.apply]
  | mul => simp [Operator.apply]

/-- Between two such values an operator is at fault only if it divides and the right value is zero. -/
theorem MissingJust.operator {P Q : Prop} {v w : Except EvalError Binary64} (o : Operator) (hv : MissingJust P v)
    (hw : MissingJust Q w) :
    MissingJust (P ∨ Q ∨ o = .div ∧ ∃ x y, v = .ok x ∧ w = .ok y ∧ y.isZero) (v >>= fun x => w >>= o.apply x) := by
  rcases hv with ⟨x, rfl, hP⟩ | ⟨rfl, hP⟩
  · rcases hw with ⟨y, rfl, hQ⟩ | ⟨rfl, hQ⟩
    · show MissingJust _ (o.apply x y)
      cases ha : o.apply x y with
      | ok z =>
        refine .inl ⟨z, rfl, ?_⟩
        intro h
        rcases h with h | h | ⟨hd, _, _, ⟨⟩, ⟨⟩, h⟩
        · exact hP h
        · exact hQ h
        · rw [apply_eq_error_iff.2 ⟨⟨hd, h⟩, rfl⟩] at ha
          cases ha
      | error e =>
        obtain ⟨⟨hd, hz⟩, rfl⟩ := apply_eq_error_iff.1 ha
        exact .inr ⟨rfl, .inr (.inr ⟨hd, x, y, rfl, rfl, hz⟩)⟩
    · exact .inr ⟨rfl, .inr (.inl hQ)⟩
  · exact .inr ⟨rfl, .inl hP⟩

theorem dividesByZero_multiplicative {x : Phrase .product} {o : Operator} {ho : o.rank = 2} {y : Phrase .factor} :
    (multiplicative x o ho y).DividesByZero ↔
      x.DividesByZero ∨ y.DividesByZero ∨ o = .div ∧ ∃ u v, x.value = .ok u ∧ y.value = .ok v ∧ v.isZero := by
  simp only [DividesByZero, divisions, List.mem_append, or_and_right, exists_or, or_assoc]
  by_cases h : o = .div
  · simp [h]
  · simp [h]

theorem dividesByZero_additive {x : Phrase .sum} {o : Operator} {ho : o.rank = 1} {y : Phrase .product} :
    (additive x o ho y).DividesByZero ↔ x.DividesByZero ∨ y.DividesByZero := by
  simp only [DividesByZero, divisions, List.mem_append, or_and_right, exists_or]

/-- A readable phrase has a value unless it divides by zero. -/
theorem missingJust_value {x : Phrase level} (h : x.Readable) : MissingJust x.DividesByZero x.value := by
  have leaf {v : Except EvalError Binary64} {u : Binary64} {l : Literal} (hv : v = .ok u) :
      MissingJust (literal l).DividesByZero v := .inl ⟨u, hv, by rintro ⟨d, ⟨⟩, -⟩⟩
  induction x with
  | literal l => exact leaf (Literal.readNumeral_text (h l List.mem_cons_self))
  | negated l => exact leaf (l := l) (Literal.readNumeral_sign_text (h l List.mem_cons_self))
  | group x ih => exact ih h
  | ofFactor x ih => exact ih h
  | ofProduct x ih => exact ih h
  | multiplicative x o ho y ihx ihy =>
    obtain ⟨hx, hy⟩ := List.forall_mem_append.1 h
    rw [dividesByZero_multiplicative]
    exact (ihx hx).operator o (ihy hy)
  | additive x o ho y ihx ihy =>
    obtain ⟨hx, hy⟩ := List.forall_mem_append.1 h
    have hdiv : o ≠ .div := by
      intro e
      subst e
      cases ho
    have sides := (ihx hx).operator o (ihy hy)
    simp only [hdiv, false_and, or_false] at sides
    rw [dividesByZero_additive]
    exact sides

/-! ## The value of an expression -/

/-- The text of a phrase whose literals are finite doubles passes the form check and is
calculated to what the phrase means. Only a division by zero can leave it without a value. -/
theorem calculate_text (x : Phrase .sum) (h : x.Readable) :
    isWellFormed x.text = true ∧ calculate x.text = x.value ∧
      (calculate x.text = .error .divisionByZero ↔ x.DividesByZero) ∧
      (¬ x.DividesByZero → ∃ v, x.value = .ok v ∧ calculate x.text = .ok v) ∧
      ∀ e, calculate x.text = .error e → e = .divisionByZero := by
  have hform := x.isWellFormed_text
  have hvalue : calculate x.text = x.value := by rw [calculate, if_pos hform, evaluate_text h]
  rw [hvalue]
  refine ⟨hform, rfl, ?_⟩
  rcases missingJust_value h with ⟨v, hv, hno⟩ | ⟨hv, hyes⟩
  · rw [hv]
    exact ⟨⟨nofun, fun hd => absurd hd hno⟩, fun _ => ⟨v, rfl, rfl⟩, nofun⟩
  · rw [hv]
    exact ⟨⟨fun _ => hyes, fun _ => rfl⟩, fun hno => absurd hyes hno, fun e he => by cases he; rfl⟩

/-- The phrase `-6/(1-0.75)+2*3`. -/
def sample : Phrase .sum :=
  let threeQuarters : Literal := ⟨['0'], some ['7', '5'], by simp, by simp, by simp, by simp⟩
  let quarter : Phrase .sum :=
    .additive (.ofProduct (.ofFactor (.literal (.ofDigit '1' rfl)))) .sub rfl (.ofFactor (.literal threeQuarters))
  .additive (.ofProduct (.multiplicative (.ofFactor (.negated (.ofDigit '6' rfl))) .div rfl (.group quarter))) .add rfl
    (.multiplicative (.ofFactor (.literal (.ofDigit '2' rfl))) .mul rfl (.literal (.ofDigit '3' rfl)))

theorem calculate_sample :
    sample.Readable ∧ sample.text = "-6/(1-0.75)+2*3".toList ∧ isWellFormed sample.text = true ∧
      calculate sample.text = .ok (-Binary64.ofNat 18) := by
  have hr : sample.Readable := by
    unfold Readable
    decide +kernel
  obtain ⟨hform, hvalue, -⟩ := calculate_text sample hr
  refine ⟨hr, by decide, hform, ?_⟩
  rw [hvalue]
  exact eq_ok_of_toOption (by decide +kernel)

end Phrase

end Calculator
