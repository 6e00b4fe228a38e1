/-
  Calculator.Proofs.Phrase — what the text of a phrase looks like.

  A phrase starts where an operand is due and ends like an operand; in between every
  character joins its neighbours (`Joins`), which is more than the form check asks, and its
  parentheses nest. So its text passes the check (`isWellFormed_text`). Cutting the text gives
  the lexemes the phrase is made of (`cut_text`), whatever a minus in it stands for: one where
  an operand is due is the sign of a literal, and any other an operator.
-/

import Calculator.Phrase
import Calculator.Proofs.Lexeme

namespace Calculator

structure Joins (before : Option Char) (c : Char) (after : Option Char) : Prop extends Fits before c after where
  digit : c.isDigit → before ≠ some ')'
  opening : c = '(' → operandDue before
  closing : c = ')' → before.any endsOperand
  sign : c = '-' → operandDue before → after.any Char.isDigit

theorem Everywhere.mono {P Q : Option Char → Char → Option Char → Prop} {before : Option Char} {text : List Char}
    (h : ∀ before c after, P before c after → Q before c after) (ht : Everywhere P before text) : Everywhere Q before text := by
  induction text generalizing before with
  | nil => trivial
  | cons c rest ih => exact ⟨h _ _ _ ht.1, ih ht.2⟩

theorem operandDue_of_endsOperand {before : Option Char} (h : before.any endsOperand) : operandDue before = false := by
  cases before with
  | none => cases h
  | some c =>
    rcases Bool.or_eq_true_iff.1 h with hd | hc
    · exact operandDue_of_isDigit hd
    · rw [eq_of_beq hc]
      rfl

theorem any_endsOperand_of_any_isDigit {c : Option Char} (h : c.any Char.isDigit) : c.any endsOperand := by
  cases c with
  | none => cases h
  | some c => exact endsOperand_of_isDigit h

theorem ne_closing_of_operandDue {before : Option Char} (h : operandDue before) : before ≠ some ')' := by
  intro e
  subst e
  cases h

namespace Joins

variable {before after : Option Char} {c : Char}

theorem of_digit (hc : c.isDigit) (hb : before ≠ some ')') : Joins before c after := by
  obtain ⟨-, hopening, hclosing, hop⟩ := ne_of_isDigit hc
  exact ⟨.of_digit hc, fun _ => hb, fun e => absurd e hopening, fun e => absurd e hclosing, fun e => absurd e (hop .sub)⟩

theorem of_point (hb : before.any Char.isDigit) (ha : after.any Char.isDigit) : Joins before '.' after :=
  ⟨.of_point hb ha, by simp, by simp, by simp, by simp⟩

theorem of_sign (ha : after.any Char.isDigit) : Joins before '-' after :=
  ⟨@Fits.of_operator _ _ .sub fun h => absurd rfl h, by simp, by simp, by simp, fun _ _ => ha⟩

theorem of_opening (hb : operandDue before) : Joins before '(' after :=
  ⟨.of_opening, by simp, fun _ => hb, by simp, by simp⟩

theorem of_closing (hb : before.any endsOperand) : Joins before ')' after :=
  ⟨.of_closing, by simp, by simp, fun _ => hb, by simp⟩

/-- An operator joins the operands on both sides of it. -/
theorem of_operator (o : Operator) (hb : before.any endsOperand) : Joins before o.toChar after := by
  have hdue : ¬ operandDue before := by simp [operandDue_of_endsOperand hb]
  refine ⟨.of_operator fun _ => hb, ?_, ?_, ?_, fun _ h => absurd h hdue⟩
  · intro hd
    exact absurd rfl ((ne_of_isDigit hd).2.2.2 o)
  · intro e
    cases o <;> cases e
  · intro e
    cases o <;> cases e

end Joins

/-- A character in the middle of a text decides its end. -/
theorem getLast?_append_cons_of_ne_nil {pre post : List Char} {c : Char} (h : post ≠ []) :
    (pre ++ c :: post).getLast? = post.getLast? := by
  rw [List.getLast?_append, List.getLast?_cons_of_ne_nil h, List.getLast?_eq_some_getLast h, Option.some_or]

theorem any_head?_append {p : Char → Bool} {pre : List Char} (h : pre.head?.any p) (post : List Char) :
    (pre ++ post).head?.any p := by
  cases pre with
  | nil => cases h
  | cons c pre => exact h

/-- Numerals open and close nothing. -/
theorem nested_run_append {depth : Nat} {run rest : List Char} (h : ∀ c ∈ run, isNumeralChar c) :
    Nested depth (run ++ rest) ↔ Nested depth rest := by
  induction run with
  | nil => rfl
  | cons c run ih =>
    have hc := h c List.mem_cons_self
    have hne (d : Char) (hd : isNumeralChar d = false) : c ≠ d := by
      intro e
      rw [e, hd] at hc
      cases hc
    rw [List.cons_append, nested_cons_of_ne (hne '(' rfl) (hne ')' rfl)]
    exact ih fun d hd => h d (List.mem_cons_of_mem _ hd)

/-! ## Literals -/

namespace Literal

theorem text_ne_nil (l : Literal) : l.text ≠ [] := by simp [text, l.whole_ne_nil]

theorem ne_nil_of_fraction_eq {l : Literal} {digits : List Char} (h : l.fraction = some digits) : digits ≠ [] := by
  intro e
  subst e
  exact l.fraction_ne_nil h

theorem isNumeralChar_of_mem_text (l : Literal) : ∀ c ∈ l.text, isNumeralChar c := by
  intro c hc
  unfold text at hc
  rcases List.mem_append.1 hc with hc | hc
  · exact isNumeralChar_of_isDigit (l.isDigit_of_mem_whole c hc)
  · split at hc
    · cases hc
    · next digits h =>
      rcases List.mem_cons.1 hc with rfl | hc
      · rfl
      · exact isNumeralChar_of_isDigit (l.isDigit_of_mem_fraction digits h c hc)

theorem any_isDigit_getLast? {digits : List Char} (h : ∀ c ∈ digits, c.isDigit) (hne : digits ≠ []) :
    digits.getLast?.any Char.isDigit := by
  rw [List.getLast?_eq_some_getLast hne]
  exact h _ (List.getLast_mem hne)

theorem any_isDigit_head? {digits : List Char} (h : ∀ c ∈ digits, c.isDigit) (hne : digits ≠ []) :
    digits.head?.any Char.isDigit := by
  rw [List.head?_eq_some_head hne]
  exact h _ (List.head_mem hne)

/-- A literal starts with a digit. -/
theorem any_isDigit_head?_text (l : Literal) : l.text.head?.any Char.isDigit := by
  exact any_head?_append (any_isDigit_head? l.isDigit_of_mem_whole l.whole_ne_nil) _

/-- A literal ends with a digit. -/
theorem any_isDigit_getLast?_text (l : Literal) : l.text.getLast?.any Char.isDigit := by
  unfold text
  split
  · rw [List.append_nil]
    exact any_isDigit_getLast? l.isDigit_of_mem_whole l.whole_ne_nil
  · next digits h =>
    have hne := ne_nil_of_fraction_eq h
    rw [getLast?_append_cons_of_ne_nil hne]
    exact any_isDigit_getLast? (l.isDigit_of_mem_fraction digits h) hne

theorem operandDue_getLast?_text (l : Literal) : operandDue l.text.getLast? = false :=
  operandDue_of_endsOperand (any_endsOperand_of_any_isDigit l.any_isDigit_getLast?_text)

/-- Digits join whatever is in front of them, except an operand that ended. -/
theorem everywhere_joins_digits {digits rest : List Char} {before : Option Char} (hd : ∀ c ∈ digits, c.isDigit)
    (hb : before ≠ some ')') (hr : Everywhere Joins (digits.getLast?.or before) rest) :
    Everywhere Joins before (digits ++ rest) := by
  induction digits generalizing before with
  | nil => exact hr
  | cons c digits ih =>
    have hc := hd c List.mem_cons_self
    rw [getLast?_cons_or] at hr
    have hne : some c ≠ some ')' := fun e => (ne_of_isDigit hc).2.2.1 (Option.some.inj e)
    exact ⟨.of_digit hc hb, ih (fun d hd' => hd d (List.mem_cons_of_mem _ hd')) hne hr⟩

theorem everywhere_joins_text (l : Literal) {rest : List Char} {before : Option Char} (hb : before ≠ some ')')
    (hr : Everywhere Joins l.text.getLast? rest) : Everywhere Joins before (l.text ++ rest) := by
  have hw := any_isDigit_getLast? l.isDigit_of_mem_whole l.whole_ne_nil
  obtain ⟨c, hc⟩ : ∃ c, l.whole.getLast? = some c := ⟨_, List.getLast?_eq_some_getLast l.whole_ne_nil⟩
  unfold text at hr ⊢
  rw [List.append_assoc]
  apply everywhere_joins_digits l.isDigit_of_mem_whole hb
  rw [hc] at hw ⊢
  split at hr
  · simpa [hc] using hr
  · next digits h =>
    have hne := ne_nil_of_fraction_eq h
    have hd := any_isDigit_head? (l.isDigit_of_mem_fraction digits h) hne
    rw [getLast?_append_cons_of_ne_nil hne] at hr
    refine ⟨.of_point hw (any_head?_append hd _), everywhere_joins_digits (l.isDigit_of_mem_fraction digits h) (by simp) ?_⟩
    rwa [List.getLast?_eq_some_getLast hne] at hr ⊢

theorem nested_text_append (l : Literal) {depth : Nat} {rest : List Char} : Nested depth (l.text ++ rest) ↔ Nested depth rest :=
  nested_run_append l.isNumeralChar_of_mem_text

end Literal

/-! ## Phrases -/

namespace Phrase

variable {level : Level}

/-- A phrase ends like an operand. -/
theorem any_endsOperand_getLast?_text (x : Phrase level) : x.text.getLast?.any endsOperand := by
  induction x with
  | literal l => exact any_endsOperand_of_any_isDigit l.any_isDigit_getLast?_text
  | negated l =>
    rw [text, List.getLast?_cons_of_ne_nil l.text_ne_nil]
    exact any_endsOperand_of_any_isDigit l.any_isDigit_getLast?_text
  | group inner ih =>
    rw [text, List.getLast?_concat]
    rfl
  | ofFactor x ih => exact ih
  | ofProduct x ih => exact ih
  | multiplicative x o ho y ihx ihy
  | additive x o ho y ihx ihy =>
    rw [text, getLast?_append_cons_of_ne_nil y.text_ne_nil]
    exact ihy

theorem operandDue_getLast?_text (x : Phrase level) : operandDue x.text.getLast? = false :=
  operandDue_of_endsOperand x.any_endsOperand_getLast?_text

/-- Where an operand is due a phrase joins what is in front of it. -/
theorem everywhere_joins_text (x : Phrase level) {rest : List Char} {before : Option Char} (hb : operandDue before)
    (hr : Everywhere Joins x.text.getLast? rest) : Everywhere Joins before (x.text ++ rest) := by
  induction x generalizing before rest with
  | literal l => exact l.everywhere_joins_text (ne_closing_of_operandDue hb) hr
  | negated l =>
    rw [text, List.getLast?_cons_of_ne_nil l.text_ne_nil] at hr
    exact ⟨.of_sign (any_head?_append l.any_isDigit_head?_text _), l.everywhere_joins_text (by simp) hr⟩
  | group inner ih =>
    rw [text, List.getLast?_concat] at hr
    simp only [text, List.cons_append, List.append_assoc]
    exact ⟨.of_opening hb, ih rfl ⟨.of_closing inner.any_endsOperand_getLast?_text, hr⟩⟩
  | ofFactor x ih => exact ih hb hr
  | ofProduct x ih => exact ih hb hr
  | multiplicative x o ho y ihx ihy
  | additive x o ho y ihx ihy =>
    simp only [text, List.append_assoc, List.cons_append] at hr ⊢
    rw [getLast?_append_cons_of_ne_nil y.text_ne_nil] at hr
    exact ihx hb ⟨Joins.of_operator o x.any_endsOperand_getLast?_text, ihy (by simp) hr⟩

theorem everywhere_joins (x : Phrase level) : Everywhere Joins none x.text := by
  have hj : Everywhere Joins none (x.text ++ []) := x.everywhere_joins_text rfl trivial
  rwa [List.append_nil] at hj

/-- A phrase closes what it opens. -/
theorem nested_text_append (x : Phrase level) {depth : Nat} {rest : List Char} :
    Nested depth (x.text ++ rest) ↔ Nested depth rest := by
  have operator (o : Operator) {depth : Nat} {rest : List Char} : Nested depth (o.toChar :: rest) ↔ Nested depth rest :=
    nested_cons_of_ne (by cases o <;> decide) (by cases o <;> decide)
  induction x generalizing depth rest with
  | literal l => exact l.nested_text_append
  | negated l =>
    rw [text, List.cons_append, nested_cons_of_ne (by decide) (by decide), l.nested_text_append]
  | group inner ih =>
    simp only [text, List.cons_append, List.append_assoc, Nested, ih]
    simp
  | ofFactor x ih => exact ih
  | ofProduct x ih => exact ih
  | multiplicative x o ho y ihx ihy
  | additive x o ho y ihx ihy =>
    rw [text, List.append_assoc, List.cons_append]
    exact ihx.trans ((operator o).trans ihy)

/-- Phrases pass the form check. -/
theorem isWellFormed_text (x : Phrase level) : isWellFormed x.text = true := by
  have hn : Nested 0 (x.text ++ []) := x.nested_text_append.2 rfl
  rw [List.append_nil] at hn
  exact isWellFormed_iff.2 ⟨x.everywhere_joins.mono fun _ _ _ h => h.toFits, hn, x.any_endsOperand_getLast?_text⟩

/-! ## Lexemes -/

def lexemes {level : Level} : Phrase level → List Lexeme
  | literal l => [.numeral false l.text]
  | negated l => [.numeral true l.text]
  | group inner => .opening :: inner.lexemes ++ [.closing]
  | ofFactor x | ofProduct x => x.lexemes
  | multiplicative x o _ y | additive x o _ y => x.lexemes ++ .operator o :: y.lexemes

/-- Where an operand is due, and in front of anything that does not make the last numeral longer,
a phrase is cut into its lexemes. -/
theorem cutFrom_text_append (x : Phrase level) {rest : List Char} {before : Option Char} (hb : operandDue before)
    (hr : rest.head?.any isNumeralChar = false) :
    Lexeme.cutFrom before (x.text ++ rest) = x.lexemes ++ Lexeme.cutFrom x.text.getLast? rest := by
  have head (o : Operator) (rest : List Char) : (o.toChar :: rest).head?.any isNumeralChar = false := by cases o <;> rfl
  induction x generalizing before rest with
  | literal l => exact Lexeme.cutFrom_numeral_append l.text_ne_nil l.isNumeralChar_of_mem_text hr
  | negated l => exact Lexeme.cutFrom_sign_append hb l.isNumeralChar_of_mem_text hr
  | group inner ih =>
    rw [show (group inner).text.getLast? = some ')' from List.getLast?_concat]
    simp only [text, lexemes, List.cons_append, List.append_assoc, List.nil_append]
    rw [Lexeme.cutFrom_opening, ih rfl rfl, Lexeme.cutFrom_closing]
  | ofFactor x ih => exact ih hb hr
  | ofProduct x ih => exact ih hb hr
  | multiplicative x o ho y ihx ihy
  | additive x o ho y ihx ihy =>
    simp only [text, lexemes, List.append_assoc, List.cons_append]
    rw [ihx hb (head o _), Lexeme.cutFrom_operator o x.operandDue_getLast?_text, ihy (operandDue_toChar o) hr,
      getLast?_append_cons_of_ne_nil y.text_ne_nil]

theorem cut_text (x : Phrase level) : Lexeme.cut x.text = x.lexemes := by
  have := @cutFrom_text_append _ x [] none rfl rfl
  rw [List.append_nil] at this
  rw [Lexeme.cut_eq_cutFrom, this, Lexeme.cutFrom, List.append_nil]

end Phrase

end Calculator
