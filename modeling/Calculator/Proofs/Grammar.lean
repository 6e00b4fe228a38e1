/-
  Calculator.Proofs.Grammar — which texts with a value are expressions.

  The form check looks at what stands in front of an operator and in front of the end, but not
  in front of a closing parenthesis, nor in front of a digit or an opening parenthesis. The two
  stacks make up for the last two: with an operand in the wrong place one is left over
  (`balance_of_arranged`). They do not make up for the first, since an operator in front of
  a closing parenthesis takes its operand from outside, as in `2(3+)`, which comes to 5.

  Main statement: a text that has a value is an expression exactly when each of its closing
  parentheses stands behind an operand (`isExpression_iff_closesOperands`).
-/

import Calculator.Proofs.Arrangement
import Calculator.Proofs.Meaning

namespace Calculator

/-- Every closing parenthesis stands right behind a digit or another closing parenthesis. -/
def ClosesOperands (text : List Char) : Prop := ∀ pre post, text = pre ++ ')' :: post → pre.getLast?.any endsOperand

def Closes (before : Option Char) (c : Char) (_ : Option Char) : Prop := c = ')' → before.any endsOperand

theorem closesOperands_iff {text : List Char} : ClosesOperands text ↔ Everywhere Closes none text := by
  rw [everywhere_iff]
  constructor
  · intro h pre c post e hc
    subst hc
    rw [Option.or_none]
    exact h pre post e
  · intro h pre post e
    have := h pre ')' post e rfl
    rwa [Option.or_none] at this

theorem IsExpression.closesOperands {text : List Char} (h : IsExpression text) : ClosesOperands text := by
  obtain ⟨x, rfl⟩ := h
  exact closesOperands_iff.2 (x.everywhere_joins.mono fun _ _ _ h => h.closing)

/-! ## Numerals of a well-formed text -/

theorem Everywhere.of_append {P : Option Char → Char → Option Char → Prop} {before : Option Char} {pre rest : List Char}
    (h : Everywhere P before (pre ++ rest)) : Everywhere P (pre.getLast?.or before) rest := by
  induction pre generalizing before with
  | nil => exact h
  | cons c pre ih =>
    rw [getLast?_cons_or]
    exact ih h.2

theorem Everywhere.of_append_of_ne_nil {P : Option Char → Char → Option Char → Prop} {before : Option Char}
    {pre rest : List Char} (h : Everywhere P before (pre ++ rest)) (hne : pre ≠ []) : Everywhere P pre.getLast? rest := by
  have := h.of_append
  rwa [List.getLast?_eq_some_getLast hne, Option.some_or, ← List.getLast?_eq_some_getLast hne] at this

theorem isDigit_of_isNumeralChar {c : Char} (h : isNumeralChar c) (hne : c ≠ '.') : c.isDigit := by
  unfold isNumeralChar at h
  simpa [hne] using h

theorem any_isNumeralChar_of_any_isDigit {c : Option Char} (h : c.any Char.isDigit) : c.any isNumeralChar = true := by
  cases c with
  | none => cases h
  | some c => exact isNumeralChar_of_isDigit h

/-- A run of numeral characters between others, with a point at most, is a literal. -/
theorem Literal.exists_text_eq {before : Option Char} {run rest : List Char} (hrun : ∀ c ∈ run, isNumeralChar c)
    (hne : run ≠ []) (hcount : run.count '.' ≤ 1) (hfits : Everywhere Fits before (run ++ rest))
    (hbefore : before.any isNumeralChar = false) (hrest : rest.head?.any isNumeralChar = false) : ∃ l : Literal, l.text = run := by
  by_cases hpoint : '.' ∈ run
  · obtain ⟨whole, fraction, rfl, hwhole⟩ := List.eq_append_cons_of_mem hpoint
    have hfraction : '.' ∉ fraction := by
      intro h
      have := List.count_pos_iff.2 h
      simp at hcount
      omega
    obtain ⟨hleft, hright⟩ := (everywhere_iff.1 hfits whole '.' (fraction ++ rest) (by simp)).point rfl
    have hdigits (digits : List Char) (hd : '.' ∉ digits) (hsub : ∀ c ∈ digits, c ∈ whole ++ '.' :: fraction) :
        ∀ c ∈ digits, c.isDigit := by
      intro c hc
      exact isDigit_of_isNumeralChar (hrun c (hsub c hc)) fun e => hd (e ▸ hc)
    refine ⟨⟨whole, some fraction, ?_, ?_, ?_, ?_⟩, rfl⟩
    · exact hdigits whole hwhole fun c hc => List.mem_append_left _ hc
    · rintro _ ⟨⟩
      exact hdigits fraction hfraction fun c hc => List.mem_append_right _ (List.mem_cons_of_mem _ hc)
    · intro e
      subst e
      have hb : before.any isNumeralChar = true := any_isNumeralChar_of_any_isDigit hleft
      rw [hb] at hbefore
      cases hbefore
    · intro e
      cases e
      have hr : rest.head?.any isNumeralChar = true := any_isNumeralChar_of_any_isDigit hright
      rw [hr] at hrest
      cases hrest
  · refine ⟨⟨run, none, ?_, by simp, hne, by simp⟩, List.append_nil _⟩
    intro c hc
    exact isDigit_of_isNumeralChar (hrun c hc) fun e => hpoint (e ▸ hc)

/-! ## Lexemes of a well-formed text -/

/-- Every numeral among the lexemes holds something, and one point at most. -/
def NumeralsShort (lexemes : List Lexeme) : Prop :=
  ∀ negated run, .numeral negated run ∈ lexemes → run ≠ [] ∧ run.count '.' ≤ 1

theorem NumeralsShort.tail {a : Lexeme} {lexemes : List Lexeme} (h : NumeralsShort (a :: lexemes)) : NumeralsShort lexemes :=
  fun negated run hr => h negated run (List.mem_cons_of_mem _ hr)

/-- A text starts with a run of numeral characters, which may be empty. -/
theorem exists_run (text : List Char) :
    ∃ run rest, text = run ++ rest ∧ (∀ c ∈ run, isNumeralChar c) ∧ rest.head?.any isNumeralChar = false :=
  ⟨text.takeWhile isNumeralChar, text.dropWhile isNumeralChar, List.takeWhile_append_dropWhile.symm,
    of_mem_takeWhile, head?_dropWhile _⟩

/-- What the form check asks of the text behind `before`, with `depth` parentheses open, and that
its closing parentheses close operands. -/
structure Continues (before : Option Char) (depth : Nat) (text : List Char) : Prop where
  fits : Everywhere Fits before text
  closes : Everywhere Closes before text
  nested : Nested depth text
  last : (text.getLast?.or before).any endsOperand

namespace Continues

variable {before : Option Char} {depth : Nat} {rest : List Char}

theorem of_run {run : List Char} (h : Continues before depth (run ++ rest)) (hrun : ∀ c ∈ run, isNumeralChar c)
    (hne : run ≠ []) : Continues run.getLast? depth rest := by
  refine ⟨h.fits.of_append_of_ne_nil hne, h.closes.of_append_of_ne_nil hne, (nested_run_append hrun).1 h.nested, ?_⟩
  have := h.last
  rwa [List.getLast?_append, Option.or_assoc, List.getLast?_eq_some_getLast hne, Option.some_or,
    ← List.getLast?_eq_some_getLast hne] at this

theorem of_opening (h : Continues before depth ('(' :: rest)) : Continues (some '(') (depth + 1) rest := by
  refine ⟨h.fits.2, h.closes.2, h.nested, ?_⟩
  have := h.last
  rwa [getLast?_cons_or] at this

theorem of_closing (h : Continues before depth (')' :: rest)) :
    operandDue before = false ∧ ∃ outer, depth = outer + 1 ∧ Continues (some ')') outer rest := by
  obtain ⟨outer, rfl, hn⟩ := h.nested
  refine ⟨operandDue_of_endsOperand (h.closes.1 rfl), outer, rfl, h.fits.2, h.closes.2, hn, ?_⟩
  have := h.last
  rwa [getLast?_cons_or] at this

theorem of_operator {o : Operator} (h : Continues before depth (o.toChar :: rest)) : Continues (some o.toChar) depth rest := by
  refine ⟨h.fits.2, h.closes.2, ?_, ?_⟩
  · exact (nested_cons_of_ne (by cases o <;> decide) (by cases o <;> decide)).1 h.nested
  · have := h.last
    rwa [getLast?_cons_or] at this

/-- An operator that is not a sign stands behind an operand. -/
theorem operandDue_operator {o : Operator} (h : Continues before depth (o.toChar :: rest))
    (hsign : ¬ (o = .sub ∧ operandDue before)) : operandDue before = false := by
  by_cases ho : o = .sub
  · simpa [ho] using hsign
  · exact operandDue_of_endsOperand (h.fits.1.any_endsOperand ho)

end Continues

/-- The first lexeme of such a text, and what is left behind it. -/
structure Starts (before : Option Char) (depth : Nat) (text : List Char) (a : Lexeme)
    (before' : Option Char) (depth' : Nat) (rest : List Char) : Prop where
  cut : Lexeme.cutFrom before text = a :: Lexeme.cutFrom before' rest
  shorter : rest.length < text.length
  continues : Continues before' depth' rest
  boundary : before'.any isNumeralChar = false ∨ rest.head?.any isNumeralChar = false
  arranged : ∀ extra lexemes, Arranged extra (operandDue before') depth' lexemes →
    ∃ extra', Arranged extra' (operandDue before) depth (a :: lexemes)

namespace Continues

variable {before : Option Char} {depth : Nat} {rest : List Char}

theorem starts_run {run : List Char} (h : Continues before depth (run ++ rest)) (hbefore : before.any isNumeralChar = false)
    (hrun : ∀ c ∈ run, isNumeralChar c) (hrest : rest.head?.any isNumeralChar = false) (hne : run ≠ [])
    (hcount : run.count '.' ≤ 1) :
    Starts before depth (run ++ rest) (.numeral false run) run.getLast? depth rest where
  cut := Lexeme.cutFrom_numeral_append hne hrun hrest
  shorter := by
    have := List.length_pos_iff.2 hne
    rw [List.length_append]
    omega
  continues := h.of_run hrun hne
  boundary := .inr hrest
  arranged := by
    intro extra lexemes ha
    obtain ⟨l, rfl⟩ := Literal.exists_text_eq hrun hne hcount h.fits hbefore hrest
    rw [l.operandDue_getLast?_text] at ha
    cases operandDue before with
    | true => exact ⟨extra, .numeral false l ha⟩
    | false => exact ⟨extra + 1, .extraNumeral l ha⟩

/-- Behind a sign the run is a literal too. -/
theorem starts_sign {run : List Char} (h : Continues before depth ('-' :: (run ++ rest))) (hdue : operandDue before)
    (hrun : ∀ c ∈ run, isNumeralChar c) (hrest : rest.head?.any isNumeralChar = false) (hne : run ≠ [])
    (hcount : run.count '.' ≤ 1) :
    Starts before depth ('-' :: (run ++ rest)) (.numeral true run) run.getLast? depth rest where
  cut := by
    rw [← List.cons_append, Lexeme.cutFrom_sign_append hdue hrun hrest, List.getLast?_cons_of_ne_nil hne]
  shorter := by
    rw [List.length_cons, List.length_append]
    omega
  continues := (h.of_operator (o := .sub)).of_run hrun hne
  boundary := .inr hrest
  arranged := by
    intro extra lexemes ha
    obtain ⟨l, rfl⟩ := Literal.exists_text_eq hrun hne hcount (h.of_operator (o := .sub)).fits rfl hrest
    rw [l.operandDue_getLast?_text] at ha
    rw [hdue]
    exact ⟨extra, .numeral true l ha⟩

theorem starts_operator {o : Operator} (h : Continues before depth (o.toChar :: rest)) (hdue : operandDue before = false) :
    Starts before depth (o.toChar :: rest) (.operator o) (some o.toChar) depth rest where
  cut := Lexeme.cutFrom_operator o hdue
  shorter := Nat.lt_succ_self _
  continues := h.of_operator
  boundary := .inl (by cases o <;> rfl)
  arranged := by
    intro extra lexemes ha
    rw [operandDue_toChar] at ha
    rw [hdue]
    exact ⟨extra, .operator o ha⟩

theorem starts_opening (h : Continues before depth ('(' :: rest)) :
    Starts before depth ('(' :: rest) .opening (some '(') (depth + 1) rest where
  cut := Lexeme.cutFrom_opening
  shorter := Nat.lt_succ_self _
  continues := h.of_opening
  boundary := .inl rfl
  arranged := by
    intro extra lexemes ha
    cases operandDue before with
    | true => exact ⟨extra, .opening ha⟩
    | false => exact ⟨extra + 1, .extraOpening ha⟩

theorem starts_closing (h : Continues before depth (')' :: rest)) :
    ∃ outer, Starts before depth (')' :: rest) .closing (some ')') outer rest := by
  obtain ⟨hdue, outer, rfl, hc⟩ := h.of_closing
  refine ⟨outer, Lexeme.cutFrom_closing, Nat.lt_succ_self _, hc, .inl rfl, ?_⟩
  intro extra lexemes ha
  rw [hdue]
  exact ⟨extra, .closing ha⟩

/-- Every such text starts with a lexeme, unless it is empty. -/
theorem exists_starts {text : List Char} (h : Continues before depth text) (hne : text ≠ [])
    (hbefore : before.any isNumeralChar = false ∨ text.head?.any isNumeralChar = false)
    (hshort : NumeralsShort (Lexeme.cutFrom before text)) :
    ∃ a before' depth' rest, Starts before depth text a before' depth' rest := by
  obtain ⟨run, rest, rfl, hrun, hrest⟩ := exists_run text
  rcases run with _ | ⟨c, run⟩
  · rcases rest with _ | ⟨c, rest⟩
    · exact absurd rfl hne
    rw [List.nil_append] at *
    rcases isExpressionChar_cases h.fits.1.alphabet with hc | rfl | ⟨o, rfl⟩ | rfl | rfl
    · simp [isNumeralChar_of_isDigit hc] at hrest
    · cases hrest
    · by_cases hsign : o = .sub ∧ operandDue before
      · obtain ⟨rfl, hdue⟩ := hsign
        obtain ⟨run, tail, rfl, hrun, htail⟩ := exists_run rest
        have hcut := Lexeme.cutFrom_sign_append hdue hrun htail
        obtain ⟨hne, hcount⟩ := hshort true run (hcut ▸ List.mem_cons_self)
        exact ⟨_, _, _, _, h.starts_sign hdue hrun htail hne hcount⟩
      · exact ⟨_, _, _, _, h.starts_operator (h.operandDue_operator hsign)⟩
    · exact ⟨_, _, _, _, h.starts_opening⟩
    · obtain ⟨outer, hs⟩ := h.starts_closing
      exact ⟨_, _, _, _, hs⟩
  · have hne : c :: run ≠ [] := List.cons_ne_nil c run
    have hfront : before.any isNumeralChar = false := by simpa [hrun c List.mem_cons_self] using hbefore
    have hcut := @Lexeme.cutFrom_numeral_append before _ _ hne hrun hrest
    exact ⟨_, _, _, _, h.starts_run hfront hrun hrest hne (hshort false _ (hcut ▸ List.mem_cons_self)).2⟩

/-- Such a text is cut into lexemes that can follow each other, if its numerals are short. -/
theorem exists_arranged {text : List Char} (h : Continues before depth text)
    (hbefore : before.any isNumeralChar = false ∨ text.head?.any isNumeralChar = false)
    (hshort : NumeralsShort (Lexeme.cutFrom before text)) :
    ∃ extra, Arranged extra (operandDue before) depth (Lexeme.cutFrom before text) := by
  induction hlen : text.length using Nat.strongRecOn generalizing before depth text with
  | _ n ih =>
  subst hlen
  by_cases hne : text = []
  · subst hne
    obtain rfl : depth = 0 := h.nested
    rw [show operandDue before = false from operandDue_of_endsOperand h.last, Lexeme.cutFrom]
    exact ⟨0, .nil⟩
  · obtain ⟨a, before', depth', rest, hs⟩ := h.exists_starts hne hbefore hshort
    rw [hs.cut] at hshort ⊢
    obtain ⟨extra, ha⟩ := ih _ hs.shorter hs.continues hs.boundary hshort.tail rfl
    exact hs.arranged extra _ ha

end Continues

/-! ## Counting operands -/

theorem numeralsShort_of_ofLexemes {lexemes : List Lexeme} {ts : List Token} (h : Token.ofLexemes lexemes = .ok ts) :
    NumeralsShort lexemes := by
  intro negated run hr
  obtain ⟨t, ht⟩ := Token.exists_ofLexeme_of_mem h _ hr
  obtain ⟨x, hx, -⟩ := Token.ofLexeme_numeral.1 ht
  exact Token.count_point_of_readNumeral hx

/-- In such a row the numbers outweigh the operators by the extra operands, and by one more if an
operand is due at the start. -/
theorem balance_of_arranged {extra depth : Nat} {due : Bool} {lexemes : List Lexeme} {ts : List Token}
    (h : Arranged extra due depth lexemes) (ht : Token.ofLexemes lexemes = .ok ts) :
    Machine.balance ts = extra + if due then 1 else 0 := by
  induction h generalizing ts with
  | nil =>
    cases ht
    rfl
  | @numeral extra _ _ negated l _ ih =>
    obtain ⟨t, us, hl, hs, rfl⟩ := Token.ofLexemes_cons.1 ht
    obtain ⟨x, -, rfl⟩ := Token.ofLexeme_numeral.1 hl
    have : Machine.balance us = extra + 0 := ih hs
    show Machine.balance us + 1 = extra + 1
    omega
  | @extraNumeral extra _ _ l _ ih =>
    obtain ⟨t, us, hl, hs, rfl⟩ := Token.ofLexemes_cons.1 ht
    obtain ⟨x, -, rfl⟩ := Token.ofLexeme_numeral.1 hl
    have : Machine.balance us = extra + 0 := ih hs
    show Machine.balance us + 1 = (extra + 1 : Nat) + 0
    omega
  | @opening extra _ _ _ ih =>
    obtain ⟨t, us, hl, hs, rfl⟩ := Token.ofLexemes_cons.1 ht
    cases hl
    show Machine.balance us = extra + 1
    exact ih hs
  | @extraOpening extra _ _ _ ih =>
    obtain ⟨t, us, hl, hs, rfl⟩ := Token.ofLexemes_cons.1 ht
    cases hl
    have : Machine.balance us = extra + 1 := ih hs
    show Machine.balance us = (extra + 1 : Nat) + 0
    omega
  | @closing extra _ _ _ ih =>
    obtain ⟨t, us, hl, hs, rfl⟩ := Token.ofLexemes_cons.1 ht
    cases hl
    show Machine.balance us = extra + 0
    exact ih hs
  | @operator extra _ _ o _ ih =>
    obtain ⟨t, us, hl, hs, rfl⟩ := Token.ofLexemes_cons.1 ht
    cases hl
    have : Machine.balance us = extra + 1 := ih hs
    show Machine.balance us - 1 = extra + 0
    omega

/-! ## Texts with a value -/

theorem calculate_eq_ok {text : List Char} {v : Binary64} (h : calculate text = .ok v) :
    isWellFormed text = true ∧ ∃ ts, Token.ofLexemes (Lexeme.cut text) = .ok ts ∧ evaluateTokens ts = .ok v := by
  unfold calculate at h
  split at h
  · next hform => exact ⟨hform, bind_eq_ok.1 h⟩
  · cases h

/-- If the closing parentheses close operands, a text with a value is an expression. -/
theorem isExpression_of_calculate {text : List Char} {v : Binary64} (h : calculate text = .ok v) (hcloses : ClosesOperands text) :
    IsExpression text := by
  obtain ⟨hform, ts, ht, hv⟩ := calculate_eq_ok h
  obtain ⟨hfits, hnested, hlast⟩ := isWellFormed_iff.1 hform
  have hc : Continues none 0 text := ⟨hfits, closesOperands_iff.1 hcloses, hnested, by rwa [Option.or_none]⟩
  have hcut := Lexeme.cut_eq_cutFrom text
  obtain ⟨extra, ha⟩ := hc.exists_arranged (.inl rfl) (hcut ▸ numeralsShort_of_ofLexemes ht)
  rw [← hcut] at ha
  -- the value leaves one operand, and so none that is extra
  have hbalance : Machine.balance ts = extra + 1 := balance_of_arranged ha ht
  rw [Machine.balance_eq_one hv] at hbalance
  obtain rfl : extra = 0 := by omega
  have := ha.isExpression
  rwa [Lexeme.flatMap_text_cut] at this

/-- A text that has a value is an expression exactly when each of its closing parentheses stands
right behind a digit or another closing parenthesis. -/
theorem isExpression_iff_closesOperands {text : List Char} {v : Binary64} (h : calculate text = .ok v) :
    IsExpression text ↔ ClosesOperands text :=
  ⟨IsExpression.closesOperands, isExpression_of_calculate h⟩

theorem group_isExpression : calculate "2*(3-1)".toList = .ok (.ofNat 4) ∧ IsExpression "2*(3-1)".toList := by
  have h : calculate "2*(3-1)".toList = .ok (.ofNat 4) := eq_ok_of_toOption (by decide +kernel)
  have hc : ClosesOperands "2*(3-1)".toList := closesOperands_iff.2 (by simp [Everywhere, Closes, endsOperand])
  exact ⟨h, (isExpression_iff_closesOperands h).2 hc⟩

/-- The sum of three and nothing takes its second operand from in front of the parenthesis. -/
theorem dangling_operator_takes_operand_outside :
    calculate "2(3+)".toList = .ok (.ofNat 5) ∧ ¬ IsExpression "2(3+)".toList := by
  refine ⟨eq_ok_of_toOption (by decide +kernel), fun h => ?_⟩
  have := h.closesOperands ['2', '(', '3', '+'] [] rfl
  simp [endsOperand] at this

end Calculator
