/-
  Calculator.Proofs.Adjacency — what keeps a text that passes the form check from being an expression.

  (1) Two neighbours that clash: an operand right behind another one, or a parenthesis that closes where
  an operand is due (`Clash`). (2) A run of digits and points with two points. (3) A sign without a
  digit. Nothing else does: with clashes excluded every character joins its neighbours
  (`everywhere_joins`), so every operand stands where one is due (`Joined.inPlace_cutFrom`) and none is extra.

  A text that the machine cannot make sense of was cut into numerals that can be read, so that only a
  clash is left to explain it.

  Main statement: `adjacencyLaw`.
-/

import Calculator.Proofs.Failure
import Calculator.Proofs.Grammar

namespace Calculator

/-- Two neighbours that the form check lets pass and no expression has. -/
inductive Clash : Char → Char → Prop where
  | digitOpening {c : Char} (h : c.isDigit) : Clash c '('
  | closingOpening : Clash ')' '('
  | closingDigit {c : Char} (h : c.isDigit) : Clash ')' c
  | operatorClosing (o : Operator) : Clash o.toChar ')'
  | openingClosing : Clash '(' ')'

def HasClash (text : List Char) : Prop := ∃ pre a b post, text = pre ++ a :: b :: post ∧ Clash a b

/-- Behind `pre` the text has a run of digits and points with none next to it. -/
structure LongestRun (text pre run : List Char) : Prop where
  split : ∃ post, text = pre ++ (run ++ post) ∧ post.head?.any isNumeralChar = false
  isNumeralChar_of_mem : ∀ c ∈ run, isNumeralChar c
  front : pre.getLast?.any isNumeralChar = false

def PointsSingle (text : List Char) : Prop := ∀ pre run, LongestRun text pre run → run.count '.' ≤ 1

/-- A minus where an operand is due stands in front of a digit. -/
def SignsDigits (text : List Char) : Prop :=
  ∀ pre post, text = pre ++ '-' :: post → operandDue pre.getLast? → post.head?.any Char.isDigit

/-! ## Neighbours of a phrase -/

/-- Characters that join their neighbours do not clash. -/
theorem Clash.not_joins {a b : Char} (h : Clash a b) (after : Option Char) : ¬ Joins (some a) b after := by
  intro hj
  cases h with
  | digitOpening h =>
    have := hj.opening rfl
    rw [operandDue_of_isDigit h] at this
    cases this
  | closingOpening => cases hj.opening rfl
  | closingDigit h => exact hj.digit h rfl
  | operatorClosing o =>
    have := hj.closing rfl
    cases o <;> cases this
  | openingClosing => cases hj.closing rfl

theorem not_hasClash_of_everywhere_joins {text : List Char} (h : Everywhere Joins none text) : ¬ HasClash text := by
  rintro ⟨pre, a, b, post, rfl, hclash⟩
  have hj := everywhere_iff.1 h (pre ++ [a]) b post (by simp)
  rw [List.getLast?_concat, Option.some_or] at hj
  exact hclash.not_joins _ hj

/-- A character that fits joins its neighbours, if it does not clash with the one in front of it. -/
theorem Joins.of_not_clash {before after : Option Char} {c : Char} (hfit : Fits before c after)
    (hfront : ∀ b, before = some b → ¬ Clash b c ∧ isExpressionChar b ∧ (b = '.' → c.isDigit))
    (hstart : c = ')' → before ≠ none) (hsign : c = '-' → operandDue before → after.any Char.isDigit) :
    Joins before c after := by
  refine ⟨hfit, ?_, ?_, ?_, hsign⟩
  · intro hd hb
    exact (hfront _ hb).1 (.closingDigit hd)
  · rintro rfl
    cases before with
    | none => rfl
    | some b =>
      obtain ⟨hno, hknown, hpoint⟩ := hfront b rfl
      rcases isExpressionChar_cases hknown with hd | rfl | ⟨o, rfl⟩ | rfl | rfl
      · exact absurd (.digitOpening hd) hno
      · cases hpoint rfl
      · exact operandDue_toChar o
      · rfl
      · exact absurd .closingOpening hno
  · rintro rfl
    cases before with
    | none => exact absurd rfl (hstart rfl)
    | some b =>
      obtain ⟨hno, hknown, hpoint⟩ := hfront b rfl
      rcases isExpressionChar_cases hknown with hd | rfl | ⟨o, rfl⟩ | rfl | rfl
      · exact endsOperand_of_isDigit hd
      · cases hpoint rfl
      · exact absurd (.operatorClosing o) hno
      · exact absurd .openingClosing hno
      · rfl

/-- Where nothing clashes and signs have their digits, every character of a text of the right form joins its
neighbours. -/
theorem everywhere_joins {text : List Char} (hfits : Everywhere Fits none text) (hnested : Nested 0 text) (hclash : ¬ HasClash text)
    (hsigns : SignsDigits text) : Everywhere Joins none text := by
  have hfits := everywhere_iff.1 hfits
  rw [everywhere_iff]
  intro pre c post e
  have hfit := hfits pre c post e
  rw [Option.or_none] at hfit ⊢
  refine .of_not_clash hfit (fun b hb => ?_) (fun hc hb => ?_) fun hc => hsigns pre post (hc ▸ e)
  · obtain ⟨front, rfl⟩ := List.getLast?_eq_some_iff.1 hb
    have hb := hfits front b (c :: post) (by rw [e]; simp)
    exact ⟨fun h => hclash ⟨front, b, c, post, by rw [e]; simp, h⟩, hb.alphabet, fun hp => (hb.point hp).2⟩
  · -- nothing is open at the start
    rw [List.getLast?_eq_none_iff.1 hb, hc] at e
    subst e
    obtain ⟨_, ⟨⟩, -⟩ := hnested

/-! ## Numerals of a text -/

/-- A longest run is the run of a numeral, with the sign in front of it if there is one. -/
theorem LongestRun.exists_numeralAt {text pre run : List Char} (h : LongestRun text pre run) (hne : run ≠ []) :
    ∃ before negated, NumeralAt text before negated run := by
  obtain ⟨post, htext, hpost⟩ := h.split
  by_cases hout : EndsOutsideNumeral pre
  · exact ⟨pre, false, ⟨post, htext, hpost⟩, h.isNumeralChar_of_mem, by simp, fun _ => ⟨hne, hout⟩⟩
  · obtain ⟨front, hsign, hdue⟩ : ∃ front, pre = front ++ ['-'] ∧ operandDue front.getLast? = true := by
      by_contra hno
      refine hout ⟨h.front, fun front e => ?_⟩
      by_contra hdue
      exact hno ⟨front, e, by simpa using hdue⟩
    refine ⟨front, true, ⟨post, ?_, hpost⟩, h.isNumeralChar_of_mem, fun _ => hdue, by simp⟩
    rw [htext, hsign]
    simp [Lexeme.text]

/-- A numeral's run is a longest one. -/
theorem NumeralAt.longestRun {text before run : List Char} {negated : Bool} (h : NumeralAt text before negated run) :
    ∃ pre, LongestRun text pre run := by
  obtain ⟨post, htext, hpost⟩ := h.split
  cases negated with
  | true =>
    refine ⟨before ++ ['-'], ⟨post, ?_, hpost⟩, h.isNumeralChar_of_mem, by simp; rfl⟩
    rw [htext]
    simp [Lexeme.text]
  | false => exact ⟨before, ⟨post, htext, hpost⟩, h.isNumeralChar_of_mem, (h.unsigned rfl).2.run⟩

/-- The numerals among the lexemes in terms of the text. -/
theorem numeralsShort_cut_iff {text : List Char} (hfits : Everywhere Fits none text) :
    NumeralsShort (Lexeme.cut text) ↔ PointsSingle text ∧ SignsDigits text := by
  simp only [NumeralsShort, numeral_mem_cut_iff]
  constructor
  · intro h
    refine ⟨fun pre run hrun => ?_, fun pre post e hdue => ?_⟩
    · by_cases hne : run = []
      · subst hne
        exact Nat.zero_le 1
      · obtain ⟨before, negated, hat⟩ := hrun.exists_numeralAt hne
        exact (h negated run ⟨before, hat⟩).2
    · obtain ⟨run, rest, rfl, hrun, hrest⟩ := exists_run post
      obtain ⟨hne, -⟩ := h true run ⟨pre, ⟨rest, by rw [e]; rfl, hrest⟩, hrun, fun _ => hdue, by simp⟩
      obtain ⟨c, run, rfl⟩ := List.exists_cons_of_ne_nil hne
      -- behind a sign there is no point, which needs a digit in front of it
      refine isDigit_of_isNumeralChar (hrun c List.mem_cons_self) ?_
      rintro rfl
      have hpoint := (everywhere_iff.1 hfits (pre ++ ['-']) '.' (run ++ rest) (by rw [e]; simp)).point rfl
      simp at hpoint
  · intro h negated run hat
    obtain ⟨hpoints, hsigns⟩ := h
    obtain ⟨before, hat⟩ := hat
    obtain ⟨pre, hrun⟩ := hat.longestRun
    refine ⟨?_, hpoints pre run hrun⟩
    obtain ⟨post, htext, hpost⟩ := hat.split
    cases negated with
    | false => exact (hat.unsigned rfl).1
    | true =>
      rintro rfl
      have hdigit := any_isNumeralChar_of_any_isDigit (hsigns before post htext (hat.signed rfl))
      rw [hpost] at hdigit
      cases hdigit

/-! ## Operands in place -/

/-- Each operand among the lexemes starts where one is due. -/
def InPlace : Bool → List Lexeme → Prop
  | _, [] => True
  | due, .numeral _ _ :: rest => due = true ∧ InPlace false rest
  | due, .opening :: rest => due = true ∧ InPlace true rest
  | _, .operator _ :: rest => InPlace true rest
  | _, .closing :: rest | _, .blank _ :: rest | _, .unknown _ :: rest => InPlace false rest

theorem Arranged.extra_eq_zero {extra depth : Nat} {due : Bool} {lexemes : List Lexeme} (h : Arranged extra due depth lexemes)
    (hplace : InPlace due lexemes) : extra = 0 := by
  induction h with
  | nil => rfl
  | numeral negated l _ ih => exact ih hplace.2
  | extraNumeral l _ ih => cases hplace.1
  | opening _ ih => exact ih hplace.2
  | extraOpening _ ih => cases hplace.1
  | closing _ ih => exact ih hplace
  | operator o _ ih => exact ih hplace

/-- Behind a run of digits and points no operand is due. -/
theorem operandDue_getLast?_run {run : List Char} (hne : run ≠ []) (hrun : ∀ c ∈ run, isNumeralChar c) :
    operandDue run.getLast? = false := by
  rw [List.getLast?_eq_some_getLast hne]
  exact operandDue_of_isNumeralChar (hrun _ (List.getLast_mem hne))

/-- A text behind `before` whose characters join their neighbours; no numeral reaches into it. -/
structure Joined (before : Option Char) (text : List Char) : Prop where
  joins : Everywhere Joins before text
  known : before.all isExpressionChar
  front : before.any isNumeralChar = false ∨ text.head?.any isNumeralChar = false

/-- The first lexeme of such a text, and what is left behind it. -/
structure StartsInPlace (before : Option Char) (text : List Char) (a : Lexeme) (before' : Option Char) (rest : List Char) : Prop where
  cut : Lexeme.cutFrom before text = a :: Lexeme.cutFrom before' rest
  shorter : rest.length < text.length
  joined : Joined before' rest
  inPlace : ∀ lexemes, InPlace (operandDue before') lexemes → InPlace (operandDue before) (a :: lexemes)

namespace Joined

variable {before : Option Char} {rest : List Char}

/-- Behind a run that has ended the next numeral is not near. -/
theorem of_run {run : List Char} (h : Everywhere Joins before (run ++ rest)) (hne : run ≠ []) (hrun : ∀ c ∈ run, isNumeralChar c)
    (hrest : rest.head?.any isNumeralChar = false) : Joined run.getLast? rest := by
  refine ⟨h.of_append_of_ne_nil hne, ?_, .inr hrest⟩
  rw [List.getLast?_eq_some_getLast hne]
  exact isExpressionChar_of_isNumeralChar (hrun _ (List.getLast_mem hne))

theorem of_cons {c : Char} (h : Joined before (c :: rest)) (hc : isNumeralChar c = false) : Joined (some c) rest :=
  ⟨h.joins.2, h.joins.1.alphabet, .inl hc⟩

/-- A numeral stands where an operand is due. -/
theorem operandDue_numeral {c : Char} (h : Joined before (c :: rest)) (hc : isNumeralChar c) : operandDue before = true := by
  have hfront : before.any isNumeralChar = false := by simpa [hc] using h.front
  cases before with
  | none => rfl
  | some b =>
    rcases isExpressionChar_cases h.known with hd | rfl | ⟨o, rfl⟩ | rfl | rfl
    · rw [Option.any_some, isNumeralChar_of_isDigit hd] at hfront
      cases hfront
    · cases hfront
    · exact operandDue_toChar o
    · rfl
    · by_cases hp : c = '.'
      · cases (h.joins.1.point hp).1
      · exact absurd rfl (h.joins.1.digit (isDigit_of_isNumeralChar hc hp))

theorem starts_run {run : List Char} (h : Joined before (run ++ rest)) (hne : run ≠ []) (hrun : ∀ c ∈ run, isNumeralChar c)
    (hrest : rest.head?.any isNumeralChar = false) :
    StartsInPlace before (run ++ rest) (.numeral false run) run.getLast? rest where
  cut := Lexeme.cutFrom_numeral_append hne hrun hrest
  shorter := by
    have := List.length_pos_iff.2 hne
    rw [List.length_append]
    omega
  joined := of_run h.joins hne hrun hrest
  inPlace := by
    intro lexemes hl
    obtain ⟨c, run, rfl⟩ := List.exists_cons_of_ne_nil hne
    rw [operandDue_getLast?_run hne hrun] at hl
    exact ⟨h.operandDue_numeral (hrun c List.mem_cons_self), hl⟩

theorem starts_sign (h : Joined before ('-' :: rest)) (hdue : operandDue before) :
    ∃ run tail, StartsInPlace before ('-' :: rest) (.numeral true run) run.getLast? tail := by
  obtain ⟨run, tail, rfl, hrun, htail⟩ := exists_run rest
  have hne : run ≠ [] := by
    rintro rfl
    have hdigit := any_isNumeralChar_of_any_isDigit (h.joins.1.sign rfl hdue)
    rw [List.nil_append, htail] at hdigit
    cases hdigit
  refine ⟨run, tail, ?_, ?_, of_run h.joins.2 hne hrun htail, ?_⟩
  · rw [← List.cons_append, Lexeme.cutFrom_sign_append hdue hrun htail, List.getLast?_cons_of_ne_nil hne]
  · rw [List.length_cons, List.length_append]
    omega
  · intro lexemes hl
    rw [operandDue_getLast?_run hne hrun] at hl
    exact ⟨hdue, hl⟩

theorem starts_operator {o : Operator} (h : Joined before (o.toChar :: rest)) (hdue : operandDue before = false) :
    StartsInPlace before (o.toChar :: rest) (.operator o) (some o.toChar) rest where
  cut := Lexeme.cutFrom_operator o hdue
  shorter := Nat.lt_succ_self _
  joined := h.of_cons (by cases o <;> rfl)
  inPlace := by
    intro lexemes hl
    rwa [operandDue_toChar] at hl

theorem starts_opening (h : Joined before ('(' :: rest)) : StartsInPlace before ('(' :: rest) .opening (some '(') rest where
  cut := Lexeme.cutFrom_opening
  shorter := Nat.lt_succ_self _
  joined := h.of_cons rfl
  inPlace := fun _ hl => ⟨h.joins.1.opening rfl, hl⟩

theorem starts_closing (h : Joined before (')' :: rest)) : StartsInPlace before (')' :: rest) .closing (some ')') rest where
  cut := Lexeme.cutFrom_closing
  shorter := Nat.lt_succ_self _
  joined := h.of_cons rfl
  inPlace := fun _ hl => hl

theorem exists_starts {text : List Char} (h : Joined before text) (hne : text ≠ []) :
    ∃ a before' rest, StartsInPlace before text a before' rest := by
  obtain ⟨run, rest, rfl, hrun, hrest⟩ := exists_run text
  by_cases hrun' : run = []
  · subst hrun'
    obtain ⟨c, rest, rfl⟩ := List.exists_cons_of_ne_nil hne
    rw [List.nil_append] at *
    rcases isExpressionChar_cases h.joins.1.alphabet with hd | rfl | ⟨o, rfl⟩ | rfl | rfl
    · simp [isNumeralChar_of_isDigit hd] at hrest
    · cases hrest
    · by_cases hdue : operandDue before
      · obtain rfl : o = .sub := by
          by_contra hsub
          rw [operandDue_of_endsOperand (h.joins.1.any_endsOperand hsub)] at hdue
          cases hdue
        obtain ⟨run, tail, hs⟩ := h.starts_sign hdue
        exact ⟨_, _, _, hs⟩
      · exact ⟨_, _, _, h.starts_operator (by simpa using hdue)⟩
    · exact ⟨_, _, _, h.starts_opening⟩
    · exact ⟨_, _, _, h.starts_closing⟩
  · exact ⟨_, _, _, h.starts_run hrun' hrun hrest⟩

/-- Where characters join their neighbours, operands start where they are due. -/
theorem inPlace_cutFrom {text : List Char} (h : Joined before text) :
    InPlace (operandDue before) (Lexeme.cutFrom before text) := by
  induction hlen : text.length using Nat.strongRecOn generalizing before text with
  | _ n ih =>
  subst hlen
  by_cases hne : text = []
  · subst hne
    rw [Lexeme.cutFrom]
    trivial
  · obtain ⟨a, before', rest, hs⟩ := h.exists_starts hne
    rw [hs.cut]
    exact hs.inPlace _ (ih _ hs.shorter hs.joined rfl)

end Joined

/-! ## Texts -/

/-- The numerals of a phrase are literals. -/
theorem Phrase.exists_literal_of_mem_lexemes {level : Phrase.Level} {x : Phrase level} {negated : Bool} {run : List Char}
    (h : .numeral negated run ∈ x.lexemes) : ∃ l : Literal, run = l.text := by
  induction x with
  | literal l =>
    cases List.mem_singleton.1 h
    exact ⟨l, rfl⟩
  | negated l =>
    cases List.mem_singleton.1 h
    exact ⟨l, rfl⟩
  | group x ih => exact ih (by simpa [lexemes] using h)
  | ofFactor x ih => exact ih h
  | ofProduct x ih => exact ih h
  | multiplicative x o ho y ihx ihy
  | additive x o ho y ihx ihy =>
    have hmem : .numeral negated run ∈ x.lexemes ∨ .numeral negated run ∈ y.lexemes := by simpa [lexemes] using h
    exact hmem.elim ihx ihy

theorem Phrase.numeralsShort_lexemes {level : Phrase.Level} (x : Phrase level) : NumeralsShort x.lexemes := by
  intro negated run h
  obtain ⟨l, rfl⟩ := exists_literal_of_mem_lexemes h
  exact ⟨l.text_ne_nil, l.count_point_text_le⟩

/-- A text of the right form without clashes, whose numerals are short, is an expression. -/
theorem isExpression_of_not_hasClash {text : List Char} (hform : isWellFormed text = true) (hclash : ¬ HasClash text)
    (hshort : NumeralsShort (Lexeme.cut text)) : IsExpression text := by
  obtain ⟨hfits, hnested, hlast⟩ := isWellFormed_iff.1 hform
  have hj := everywhere_joins hfits hnested hclash ((numeralsShort_cut_iff hfits).1 hshort).2
  have hc : Continues none 0 text := ⟨hfits, hj.mono fun _ _ _ h => h.closing, hnested, by rwa [Option.or_none]⟩
  rw [Lexeme.cut_eq_cutFrom] at hshort
  obtain ⟨extra, ha⟩ := hc.exists_arranged (.inl rfl) hshort
  have hplace : Joined none text := ⟨hj, rfl, .inl rfl⟩
  obtain rfl := ha.extra_eq_zero hplace.inPlace_cutFrom
  have := ha.isExpression
  rwa [← Lexeme.cut_eq_cutFrom, Lexeme.flatMap_text_cut] at this

/-- An expression with tokens comes to a value or divides by zero. -/
theorem IsExpression.calculate_ne_malformed {text : List Char} (h : IsExpression text) {ts : List Token}
    (hts : Token.ofLexemes (Lexeme.cut text) = .ok ts) : calculate text ≠ .error .malformed := by
  obtain ⟨x, rfl⟩ := h
  have hr : x.Readable := Phrase.readable_of_ofLexemes (x.cut_text ▸ hts)
  rw [calculate, if_pos x.isWellFormed_text, Phrase.evaluate_text hr]
  intro hmalformed
  rcases Phrase.missingJust_value hr with ⟨v, hv, -⟩ | ⟨hv, -⟩
  · rw [hv] at hmalformed
    cases hmalformed
  · rw [hv] at hmalformed
    cases hmalformed

/-- Which neighbours stand between the form check and the grammar, and what a text that the machine cannot make sense
of is like. -/
structure AdjacencyLaw (text : List Char) : Prop where
  isExpression_iff : IsExpression text ↔ isWellFormed text = true ∧ ¬ HasClash text ∧ PointsSingle text ∧ SignsDigits text
  hasClash : isWellFormed text = true → calculate text = .error .malformed → HasClash text

theorem adjacencyLaw (text : List Char) : AdjacencyLaw text where
  isExpression_iff := by
    constructor
    · intro h
      obtain ⟨x, rfl⟩ := h
      have hj := x.everywhere_joins
      have hfits : Everywhere Fits none x.text := hj.mono fun _ _ _ h => h.toFits
      have hshort : NumeralsShort (Lexeme.cut x.text) := x.cut_text ▸ x.numeralsShort_lexemes
      exact ⟨x.isWellFormed_text, not_hasClash_of_everywhere_joins hj, (numeralsShort_cut_iff hfits).1 hshort⟩
    · intro h
      obtain ⟨hform, hclash, hnumerals⟩ := h
      exact isExpression_of_not_hasClash hform hclash ((numeralsShort_cut_iff (isWellFormed_iff.1 hform).1).2 hnumerals)
  hasClash := by
    intro hform hmalformed
    by_contra hclash
    have hbind := hmalformed
    rw [calculate_of_isWellFormed hform] at hbind
    rcases bind_eq_error.1 hbind with h | ⟨ts, hts, -⟩
    · obtain ⟨_, _, _, -, ⟨⟩⟩ := (ofLexemes_cut_eq_error_iff hform).1 h
    · exact (isExpression_of_not_hasClash hform hclash (numeralsShort_of_ofLexemes hts)).calculate_ne_malformed hts hmalformed

/-- A clash can leave an operand over. -/
example : isWellFormed "2(3)".toList = true ∧ calculate "2(3)".toList = .error .malformed := by decide +kernel

end Calculator
