/-
  Calculator.Proofs.Arrangement — which lexemes in a row make a phrase.

  Left to right, an operand is either due or has just ended (`Arranged`). Where one is due a
  numeral or an opening parenthesis is in place; where one has ended an operator or a closing
  parenthesis is. Nothing keeps a numeral or an opening parenthesis from standing where an
  operand has ended: these are counted, and without any the lexemes spell a phrase
  (`Arranged.isExpression`).

  The phrase is put together from the left. `Awaits level depth text` says that behind `text`
  a phrase of the level can stand, `depth` parentheses being open: the text holds the sums and
  products that are not yet complete, each with the operator behind it. A text that `Ends` with
  a product goes on with an operator, a closing parenthesis or nothing.
-/

import Calculator.Phrase

namespace Calculator

/-! ## What a phrase can stand behind -/

inductive Phrase.Awaits : Phrase.Level → Nat → List Char → Prop where
  | start : Awaits .sum 0 []
  | opening {depth : Nat} {text : List Char} : Awaits .factor depth text → Awaits .sum (depth + 1) (text ++ ['('])
  | ofSum {depth : Nat} {text : List Char} : Awaits .sum depth text → Awaits .product depth text
  | additive {depth : Nat} {text : List Char} (x : Phrase .sum) {o : Operator} (rank_eq : o.rank = 1) :
      Awaits .sum depth text → Awaits .product depth (text ++ x.text ++ [o.toChar])
  | ofProduct {depth : Nat} {text : List Char} : Awaits .product depth text → Awaits .factor depth text
  | multiplicative {depth : Nat} {text : List Char} (x : Phrase .product) {o : Operator} (rank_eq : o.rank = 2) :
      Awaits .product depth text → Awaits .factor depth (text ++ x.text ++ [o.toChar])

/-- The text ends with a phrase of the level, behind a text that awaits one. -/
def Phrase.Ends (level : Phrase.Level) (depth : Nat) (text : List Char) : Prop :=
  ∃ (before : List Char) (x : Phrase level), Awaits level depth before ∧ text = before ++ x.text

namespace Phrase

variable {depth : Nat} {text : List Char}

theorem Awaits.factor (h : Awaits .factor depth text) (x : Phrase .factor) : Ends .product depth (text ++ x.text) := by
  cases h with
  | ofProduct h => exact ⟨text, .ofFactor x, h, rfl⟩
  | multiplicative y hr h => exact ⟨_, .multiplicative y _ hr x, h, by simp [Phrase.text]⟩

theorem Ends.sum (h : Ends .product depth text) : Ends .sum depth text := by
  obtain ⟨before, x, h, rfl⟩ := h
  cases h with
  | ofSum h => exact ⟨before, .ofProduct x, h, rfl⟩
  | additive y hr h => exact ⟨_, .additive y _ hr x, h, by simp [Phrase.text]⟩

/-- Behind an operator an operand is due again. -/
theorem Ends.operator (h : Ends .product depth text) (o : Operator) : Awaits .factor depth (text ++ [o.toChar]) := by
  have hrank : o.rank = 1 ∨ o.rank = 2 := by
    cases o with
    | add => exact .inl rfl
    | sub => exact .inl rfl
    | mul => exact .inr rfl
    | div => exact .inr rfl
  rcases hrank with hr | hr
  · obtain ⟨before, x, hb, rfl⟩ := h.sum
    exact .ofProduct (.additive x hr hb)
  · obtain ⟨before, x, hb, rfl⟩ := h
    exact .multiplicative x hr hb

theorem Awaits.openingFactor (h : Awaits .factor depth text) : Awaits .factor (depth + 1) (text ++ ['(']) :=
  .ofProduct (.ofSum (.opening h))

/-- A closing parenthesis makes a group of the sum in front of it. -/
theorem Ends.closing (h : Ends .product (depth + 1) text) : Ends .product depth (text ++ [')']) := by
  obtain ⟨before, x, hb, rfl⟩ := h.sum
  cases hb with
  | opening hb =>
    have := hb.factor (.group x)
    simpa [Phrase.text] using this

theorem Ends.isExpression (h : Ends .product 0 text) : IsExpression text := by
  obtain ⟨before, x, hb, rfl⟩ := h.sum
  cases hb with
  | start => exact ⟨x, rfl⟩

end Phrase

/-! ## Lexemes in a row -/

/-- Lexemes that can follow where an operand is `due` or has just ended, `depth` parentheses
being open. Of the operands in them, `extra` stand where none is due. -/
inductive Arranged : (extra : Nat) → (due : Bool) → (depth : Nat) → List Lexeme → Prop where
  | nil : Arranged 0 false 0 []
  | numeral {extra depth : Nat} {rest : List Lexeme} (negated : Bool) (l : Literal) :
      Arranged extra false depth rest → Arranged extra true depth (.numeral negated l.text :: rest)
  | extraNumeral {extra depth : Nat} {rest : List Lexeme} (l : Literal) :
      Arranged extra false depth rest → Arranged (extra + 1) false depth (.numeral false l.text :: rest)
  | opening {extra depth : Nat} {rest : List Lexeme} :
      Arranged extra true (depth + 1) rest → Arranged extra true depth (.opening :: rest)
  | extraOpening {extra depth : Nat} {rest : List Lexeme} :
      Arranged extra true (depth + 1) rest → Arranged (extra + 1) false depth (.opening :: rest)
  | closing {extra depth : Nat} {rest : List Lexeme} :
      Arranged extra false depth rest → Arranged extra false (depth + 1) (.closing :: rest)
  | operator {extra depth : Nat} {rest : List Lexeme} (o : Operator) :
      Arranged extra true depth rest → Arranged extra false depth (.operator o :: rest)

/-- Lexemes without extra operands go on from a text to a whole expression. -/
theorem Arranged.isExpression_append {extra depth : Nat} {due : Bool} {lexemes : List Lexeme} (h : Arranged extra due depth lexemes)
    (hextra : extra = 0) {text : List Char}
    (htext : if due then Phrase.Awaits .factor depth text else Phrase.Ends .product depth text) :
    IsExpression (text ++ lexemes.flatMap Lexeme.text) := by
  induction h generalizing text with
  | nil =>
    rw [List.flatMap_nil, List.append_nil]
    exact htext.isExpression
  | @numeral extra depth rest negated l _ ih =>
    rw [List.flatMap_cons, ← List.append_assoc]
    apply ih hextra
    cases negated with
    | false => exact htext.factor (.literal l)
    | true => exact htext.factor (.negated l)
  | extraNumeral => cases hextra
  | opening _ ih =>
    rw [List.flatMap_cons, ← List.append_assoc]
    exact ih hextra htext.openingFactor
  | extraOpening => cases hextra
  | closing _ ih =>
    rw [List.flatMap_cons, ← List.append_assoc]
    exact ih hextra htext.closing
  | operator o _ ih =>
    rw [List.flatMap_cons, ← List.append_assoc]
    exact ih hextra (htext.operator o)

theorem Arranged.isExpression {lexemes : List Lexeme} (h : Arranged 0 true 0 lexemes) :
    IsExpression (lexemes.flatMap Lexeme.text) :=
  h.isExpression_append rfl (.ofProduct (.ofSum .start))

end Calculator
