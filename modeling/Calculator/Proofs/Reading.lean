/-
  Calculator.Proofs.Reading — the tokens of any text, or its error.

  Every lexeme of a text but white space gives a token (`Lexeme.Gives`), unless it is at fault
  (`Lexeme.Fails`). Where none is, the tokens are those of the lexemes in their order, and otherwise the error is
  that of the leftmost one at fault. A text that starts in the same way has that error too
  (`LeftmostFault.tokenize_append`).

  What stands in front of a lexeme without white space between them also decides which token may come in front of
  its own (`Token.MayFollow`).

  Main statement: `tokenLaw`.
-/

import Calculator.Proofs.Cut
import Calculator.Proofs.Failure

namespace Calculator

/-! ## What lexemes give -/

/-- A run that spells a finite double: with a digit, one point at most, and below 2^1024 - 2^970. -/
structure Legible (run : List Char) : Prop where
  digit : ∃ c ∈ run, c.isDigit
  point : run.count '.' ≤ 1
  finite : (Decimal.ofRun run).value < 2 ^ 1024 - 2 ^ 970

namespace Lexeme

def isWhite : Lexeme → Bool
  | blank _ => true
  | _ => false

inductive Gives : Lexeme → Token → Prop where
  | operator (o : Operator) : Gives (.operator o) (.operator o)
  | opening : Gives .opening .opening
  | closing : Gives .closing .closing
  | unsigned {run : List Char} {x : Binary64} (h : Legible run) (hx : x = (Decimal.ofRun run).toBinary64) :
      Gives (.numeral false run) (.number x)
  | signed {run : List Char} {x : Binary64} (h : Legible run) (hx : x = -(Decimal.ofRun run).toBinary64) :
      Gives (.numeral true run) (.number x)

/-- The error of a lexeme that has no token. A numeral is named with its sign. -/
inductive Fails : Lexeme → EvalError → Prop where
  | numeral {negated : Bool} {run : List Char} (h : ¬ Legible run) :
      Fails (.numeral negated run) (.unreadable (String.ofList (Lexeme.numeral negated run).text))
  | unknown (c : Char) : Fails (.unknown c) .invalid

end Lexeme

/-- A run of digits and points is read just if it is legible. -/
theorem Binary64.ofRun?_eq_some_iff {run : List Char} (hrun : ∀ c ∈ run, isNumeralChar c) {x : Binary64} :
    ofRun? run = some x ↔ Legible run ∧ x = (Decimal.ofRun run).toBinary64 := by
  have hfinite (d : Decimal) : d.toBinary64.isFinite = true ↔ d.value < 2 ^ 1024 - 2 ^ 970 := d.isFinite_toBinary64_iff_value
  cases hd : Decimal.ofRun? run with
  | none =>
    have hno : ¬ Legible run := by
      intro h
      obtain ⟨⟨c, hc, hdigit⟩, hpoint, -⟩ := h
      rcases Decimal.ofRun?_eq_none_iff.1 hd with rfl | rfl | hcount
      · cases hc
      · rw [List.mem_singleton.1 hc] at hdigit
        cases hdigit
      · omega
    simp [ofRun?, hd, hno]
  | some d =>
    obtain ⟨hnil, hsingle, hcount⟩ := Decimal.of_ofRun?_eq_some hd
    have hdigit : ∃ c ∈ run, c.isDigit := by
      by_contra hno
      -- without a digit there are only points, and no more than one of them
      have hpoints : ∀ c ∈ run, c = '.' := fun c hc => by
        have hdigit : ¬ c.isDigit := fun hdigit => hno ⟨c, hc, hdigit⟩
        simpa [isNumeralChar, hdigit] using hrun c hc
      rw [List.eq_replicate_of_mem hpoints] at hnil hsingle hcount
      rw [List.count_replicate_self] at hcount
      rcases Nat.le_one_iff_eq_zero_or_eq_one.1 hcount with hlength | hlength
      · exact hnil (by rw [hlength]; rfl)
      · exact hsingle (by rw [hlength]; rfl)
    have hvalue := hfinite (Decimal.ofRun run)
    rw [ofRun?, hd, Option.map_some, Option.filter_eq_some_iff, Decimal.eq_ofRun hd, Option.some.injEq]
    generalize (Decimal.ofRun run).toBinary64 = y at hvalue
    constructor
    · intro h
      obtain ⟨rfl, h⟩ := h
      exact ⟨⟨hdigit, hcount, hvalue.1 h⟩, rfl⟩
    · intro h
      obtain ⟨h, rfl⟩ := h
      exact ⟨rfl, hvalue.2 h.finite⟩

namespace Token

/-- A run of digits and points is read as the double nearest to it, negated under a sign. -/
theorem readNumeral_eq_ok_iff {negated : Bool} {run : List Char} (hrun : ∀ c ∈ run, isNumeralChar c) {x : Binary64} :
    readNumeral negated run = .ok x ↔ (Lexeme.numeral negated run).Gives (.number x) := by
  have hread := @Binary64.ofRun?_eq_some_iff run hrun
  constructor
  · intro h
    unfold readNumeral at h
    split at h
    · next y hy =>
      obtain ⟨hlegible, hvalue⟩ := hread.1 hy
      rw [← Except.ok.inj h, hvalue]
      cases negated with
      | true =>
        rw [if_pos rfl]
        exact .signed hlegible rfl
      | false =>
        rw [if_neg Bool.false_ne_true]
        exact .unsigned hlegible rfl
    · cases h
  · intro h
    cases h with
    | signed h hx => simp only [readNumeral, hread.2 ⟨h, rfl⟩, if_true, hx]
    | unsigned h hx => simp only [readNumeral, hread.2 ⟨h, rfl⟩, Bool.false_eq_true, if_false, hx]

/-- A run that is not legible cannot be read. -/
theorem readNumeral_eq_error_iff_not_legible {negated : Bool} {run : List Char} (hrun : ∀ c ∈ run, isNumeralChar c)
    {e : EvalError} : readNumeral negated run = .error e ↔
      ¬ Legible run ∧ e = .unreadable (String.ofList (Lexeme.numeral negated run).text) := by
  have hnone : Binary64.ofRun? run = none ↔ ¬ Legible run := by
    rw [Option.eq_none_iff_forall_ne_some]
    constructor
    · intro h hlegible
      exact h _ ((Binary64.ofRun?_eq_some_iff hrun).2 ⟨hlegible, rfl⟩)
    · intro h x hx
      exact h ((Binary64.ofRun?_eq_some_iff hrun).1 hx).1
  rw [readNumeral_eq_error_iff, hnone]

section

variable {before after : Option Char} {rest : List Char} {a : Lexeme} {as : List Lexeme} {t : Token} {ts : List Token}
  {e : EvalError}

theorem ofLexeme_eq_none_iff : ofLexeme a = .ok none ↔ a.isWhite = true := by
  cases a with
  | numeral negated run => simp [ofLexeme_numeral, Lexeme.isWhite]
  | blank | operator | opening | closing | unknown => simp [ofLexeme, Lexeme.isWhite]

/-- A lexeme that can be read and is no white space has the token it gives. -/
theorem ofLexeme_eq_some_iff (h : a.Stands before after) : ofLexeme a = .ok (some t) ↔ a.Gives t := by
  cases h with
  | blank | unknown =>
    constructor
    · intro h
      cases h
    · intro h
      cases h
  | operator | opening | closing =>
    constructor
    · intro h
      cases h
      constructor
    · intro h
      cases h
      rfl
  | numeral h =>
    rw [ofLexeme_numeral]
    constructor
    · intro hread
      obtain ⟨x, hx, htoken⟩ := hread
      rw [Option.some.inj htoken]
      exact (readNumeral_eq_ok_iff h.isNumeralChar_of_mem).1 hx
    · intro hgives
      have hnumber : ∃ x, t = number x := by
        cases hgives with
        | unsigned | signed => exact ⟨_, rfl⟩
      obtain ⟨x, rfl⟩ := hnumber
      exact ⟨x, (readNumeral_eq_ok_iff h.isNumeralChar_of_mem).2 hgives, rfl⟩

theorem ofLexeme_eq_error_iff_fails (h : a.Stands before after) : ofLexeme a = .error e ↔ a.Fails e := by
  rw [ofLexeme_eq_error_iff]
  constructor
  · intro hread
    rcases hread with ⟨negated, run, rfl, hread⟩ | ⟨c, rfl, rfl⟩
    · cases h with
      | numeral h =>
        obtain ⟨hno, rfl⟩ := (readNumeral_eq_error_iff_not_legible h.isNumeralChar_of_mem).1 hread
        exact .numeral hno
    · exact .unknown c
  · intro hfails
    cases hfails with
    | numeral hno =>
      cases h with
      | numeral h =>
        exact .inl ⟨_, _, rfl, (readNumeral_eq_error_iff_not_legible h.isNumeralChar_of_mem).2 ⟨hno, rfl⟩⟩
    | unknown c => exact .inr ⟨c, rfl, rfl⟩

/-- The tokens are those of the lexemes that are no white space, in their order. -/
theorem ofLexemes_eq_ok_iff (h : Lexeme.AllStand before rest as) :
    ofLexemes as = .ok ts ↔ List.Forall₂ Lexeme.Gives (as.filter fun a => !a.isWhite) ts := by
  induction as generalizing before ts with
  | nil =>
    rw [List.filter_nil, List.forall₂_nil_left_iff]
    exact ⟨fun h => (Except.ok.inj h).symm, fun h => congrArg Except.ok h.symm⟩
  | cons a as ih =>
    obtain ⟨ha, has⟩ := h
    rw [ofLexemes_cons, List.filter_cons]
    cases hwhite : a.isWhite with
    | true =>
      rw [if_neg (by simp), ← ih has]
      constructor
      · intro hread
        obtain ⟨t, us, ht, hs, rfl⟩ := hread
        rw [ofLexeme_eq_none_iff.2 hwhite] at ht
        cases ht
        exact hs
      · intro hs
        exact ⟨none, ts, ofLexeme_eq_none_iff.2 hwhite, hs, rfl⟩
    | false =>
      rw [if_pos (by simp), List.forall₂_cons_left_iff]
      constructor
      · intro hread
        obtain ⟨t, us, ht, hs, rfl⟩ := hread
        cases t with
        | none =>
          rw [ofLexeme_eq_none_iff.1 ht] at hwhite
          cases hwhite
        | some t => exact ⟨t, us, (ofLexeme_eq_some_iff ha).1 ht, (ih has).1 hs, rfl⟩
      · intro hgives
        obtain ⟨t, us, ht, hs, rfl⟩ := hgives
        exact ⟨some t, us, (ofLexeme_eq_some_iff ha).2 ht, (ih has).2 hs, rfl⟩

end

end Token

/-! ## The leftmost fault -/

namespace Lexeme

/-- The leftmost of the lexemes at fault, behind those in `front`, and its error. -/
structure LeftmostFault (pieces front : List Lexeme) (a : Lexeme) (e : EvalError) : Prop where
  split : ∃ behind, pieces = front ++ a :: behind
  faultless : ∀ b ∈ front, ∀ e', ¬ b.Fails e'
  fails : a.Fails e

section

variable {before after after' : Option Char} {rest rest' : List Char} {a : Lexeme} {as behind : List Lexeme}

theorem AllStand.exists_stands (h : AllStand before rest as) : ∀ a ∈ as, ∃ before after, a.Stands before after := by
  induction as generalizing before with
  | nil => exact List.forall_mem_nil _
  | cons a as ih =>
    obtain ⟨ha, has⟩ := h
    exact List.forall_mem_cons.2 ⟨⟨_, _, ha⟩, ih has⟩

/-- Of what follows it only matters to a numeral whether that prolongs it. -/
theorem Stands.congr_after (h : a.Stands before after)
    (hafter : ∀ negated run, a = .numeral negated run → after'.any isNumeralChar = false) : a.Stands before after' := by
  cases h with
  | blank h => exact .blank h
  | operator h => exact .operator h
  | opening => exact .opening
  | closing => exact .closing
  | numeral h => exact .numeral { h with behind := hafter _ _ rfl }
  | unknown hblank hchar => exact .unknown hblank hchar

/-- Lexemes stand where they do in front of any text, unless it prolongs a numeral at their end. -/
theorem AllStand.congr_behind (h : AllStand before rest (as ++ a :: behind))
    (hrest : ∀ negated run, a = numeral negated run → rest'.head?.any isNumeralChar = false) :
    AllStand before rest' (as ++ [a]) := by
  obtain ⟨_, _, ha⟩ := h.exists_stands a (List.mem_append_right _ List.mem_cons_self)
  induction as generalizing before with
  | nil => exact ⟨h.1.congr_after hrest, trivial⟩
  | cons b as ih =>
    refine ⟨?_, ih h.2⟩
    -- the character behind `b` is one of `as` or of `a`
    have hne : as.flatMap text ++ a.text ≠ [] := List.append_ne_nil_of_right_ne_nil _ ha.text_ne_nil
    have hhead (tail : List Char) : (as.flatMap text ++ (a.text ++ tail)).head? = (as.flatMap text ++ a.text).head? := by
      rw [← List.append_assoc, List.head?_append, List.head?_eq_some_head hne, Option.some_or]
    have hb := h.1
    simp only [List.append_eq, List.flatMap_append, List.flatMap_cons, List.append_assoc, List.flatMap_nil, List.nil_append,
      hhead] at hb ⊢
    exact hb

/-- The leftmost lexeme at fault decides the error, whatever lexemes stand behind it. -/
theorem LeftmostFault.ofLexemes_eq_error {pieces front : List Lexeme} {e : EvalError} (h : LeftmostFault pieces front a e)
    (hstand : AllStand before rest pieces) (behind : List Lexeme) : Token.ofLexemes (front ++ a :: behind) = .error e := by
  obtain ⟨_, rfl⟩ := h.split
  have hstands := hstand.exists_stands
  have hfront : ∃ ts, Token.ofLexemes front = .ok ts := by
    apply Token.exists_ofLexemes
    intro b hb
    obtain ⟨_, _, hstands⟩ := hstands b (List.mem_append_left _ hb)
    cases hread : Token.ofLexeme b with
    | ok t => exact ⟨t, rfl⟩
    | error e' => exact absurd ((Token.ofLexeme_eq_error_iff_fails hstands).1 hread) (h.faultless b hb e')
  obtain ⟨ts, hts⟩ := hfront
  obtain ⟨_, _, hstands⟩ := hstands a (List.mem_append_right _ List.mem_cons_self)
  exact Token.ofLexemes_eq_error hts ((Token.ofLexeme_eq_error_iff_fails hstands).2 h.fails)

/-- The error is that of the leftmost lexeme at fault. -/
theorem ofLexemes_eq_error_iff (hstand : AllStand before rest as) {e : EvalError} :
    Token.ofLexemes as = .error e ↔ ∃ front a, LeftmostFault as front a e := by
  constructor
  · intro h
    obtain ⟨front, a, behind, ts, rfl, hfront, ha⟩ := Token.exists_of_ofLexemes_eq_error h
    have hstands := hstand.exists_stands
    refine ⟨front, a, ⟨behind, rfl⟩, fun b hb e' hfails => ?_, ?_⟩
    · obtain ⟨_, _, hstands⟩ := hstands b (List.mem_append_left _ hb)
      obtain ⟨t, ht⟩ := Token.exists_ofLexeme_of_mem hfront b hb
      rw [(Token.ofLexeme_eq_error_iff_fails hstands).2 hfails] at ht
      cases ht
    · obtain ⟨_, _, hstands⟩ := hstands a (List.mem_append_right _ List.mem_cons_self)
      exact (Token.ofLexeme_eq_error_iff_fails hstands).1 ha
  · intro h
    obtain ⟨front, a, h⟩ := h
    have herror := h.ofLexemes_eq_error hstand
    obtain ⟨behind, rfl⟩ := h.split
    exact herror behind

/-- Behind the leftmost lexeme at fault the text may go on in any way that does not prolong that one. -/
theorem LeftmostFault.tokenize_append {front : List Lexeme} {e : EvalError} (h : LeftmostFault as front a e)
    (hstand : AllStand none rest' as) (hrest : ∀ negated run, a = numeral negated run → rest.head?.any isNumeralChar = false) :
    tokenize ((front ++ [a]).flatMap Lexeme.text ++ rest) = .error e := by
  have herror := h.ofLexemes_eq_error hstand
  obtain ⟨behind, rfl⟩ := h.split
  show Token.ofLexemes (cut _) = _
  rw [cut_eq_cutFrom, cutFrom_flatMap_append (hstand.congr_behind hrest), List.append_assoc]
  exact herror _

end

end Lexeme

/-! ## Neighbouring tokens -/

namespace Token

/-- The last character of what the token comes from. -/
inductive EndsWith : Token → Char → Prop where
  | number {x : Binary64} {c : Char} (h : isNumeralChar c) : EndsWith (.number x) c
  | operator (o : Operator) : EndsWith (.operator o) o.toChar
  | opening : EndsWith .opening '('
  | closing : EndsWith .closing ')'

/-- Without white space the token `t` comes behind the token `before` only if they are not two numbers, and
as a minus only behind an operand. -/
structure MayFollow (before : Option Token) (t : Token) : Prop where
  number : ∀ x y, t = .number x → before ≠ some (.number y)
  minus : t = .operator .sub → before ≠ none ∧ before ≠ some .opening ∧ ∀ o, before ≠ some (.operator o)

section

variable {before : Option Token} {front after : Option Char} {a : Lexeme} {t : Token}

theorem EndsWith.of_gives (h : a.Gives t) (hstands : a.Stands front after) : ∃ c, a.text.getLast? = some c ∧ t.EndsWith c := by
  cases h with
  | operator o => exact ⟨_, rfl, .operator o⟩
  | opening => exact ⟨_, rfl, .opening⟩
  | closing => exact ⟨_, rfl, .closing⟩
  | unsigned hlegible =>
    cases hstands with
    | numeral hrun =>
      have hne := (hrun.unsigned rfl).1
      exact ⟨_, List.getLast?_eq_some_getLast hne, .number (hrun.isNumeralChar_of_mem _ (List.getLast_mem hne))⟩
  | signed hlegible =>
    cases hstands with
    | numeral hrun =>
      obtain ⟨c, hc, -⟩ := hlegible.digit
      have hne := List.ne_nil_of_mem hc
      refine ⟨_, ?_, .number (hrun.isNumeralChar_of_mem _ (List.getLast_mem hne))⟩
      rw [← List.getLast?_eq_some_getLast hne]
      exact List.getLast?_cons_of_ne_nil hne

theorem MayFollow.of_gives (h : a.Gives t) (hstands : a.Stands front after) (hfront : Option.Rel EndsWith before front) :
    MayFollow before t := by
  constructor
  · intro x y ht hbefore
    subst ht hbefore
    cases hfront with
    | some hend =>
    cases hend with
    | number hc =>
    cases h with
    | unsigned =>
      cases hstands with
      | numeral hrun =>
      -- a run reaches as far to the left as it can
      have hno := (hrun.unsigned rfl).2
      rw [Option.any_some, hc] at hno
      cases hno
    | signed =>
      cases hstands with
      | numeral hrun =>
      have hdue := hrun.signed rfl
      rw [operandDue_of_isNumeralChar hc] at hdue
      cases hdue
  · intro ht
    subst ht
    cases h with
    | operator =>
    cases hstands with
    | operator hsub =>
    have hdue := hsub rfl
    refine ⟨?_, ?_, ?_⟩
    · intro hbefore
      subst hbefore
      cases hfront
      cases hdue
    · rintro rfl
      cases hfront with
      | some hend =>
      cases hend
      cases hdue
    · intro o hbefore
      subst hbefore
      cases hfront with
      | some hend =>
      cases hend
      rw [operandDue_toChar] at hdue
      cases hdue

/-- The tokens of lexemes without white space, in a row behind the token `before`. -/
theorem mayFollow_of_forall₂ {as : List Lexeme} {ts : List Token} {rest : List Char} (hgives : List.Forall₂ Lexeme.Gives as ts)
    (hstand : Lexeme.AllStand front rest as) (hfront : Option.Rel EndsWith before front) :
    ∀ pre t post, ts = pre ++ t :: post → MayFollow (pre.getLast?.or before) t := by
  induction hgives generalizing before front with
  | nil => simp
  | @cons a t as ts ha _ ih =>
    obtain ⟨hstands, hstand⟩ := hstand
    intro pre u post hts
    cases pre with
    | nil =>
      obtain ⟨rfl, -⟩ := List.cons.inj hts
      exact .of_gives ha hstands hfront
    | cons u' pre =>
      obtain ⟨rfl, rfl⟩ := List.cons.inj hts
      obtain ⟨c, hc, hend⟩ := EndsWith.of_gives ha hstands
      have hbehind : Option.Rel EndsWith (some t) a.text.getLast? := by
        rw [hc]
        exact .some hend
      rw [List.getLast?_cons, Option.some_or, ← Option.or_some]
      exact ih hstand hbehind pre u post rfl

end

end Token

/-- The lexemes of a text without white space. -/
theorem IsCut.isWhite_eq_false {text : List Char} {pieces : List Lexeme} (h : IsCut text pieces)
    (htext : ∀ c ∈ text, isBlank c = false) : ∀ a ∈ pieces, a.isWhite = false := by
  intro a ha
  cases a with
  | blank c =>
    obtain ⟨_, _, hstands⟩ := h.allStand.exists_stands _ ha
    cases hstands with
    | blank hc =>
      have hmem : c ∈ text := by
        rw [← h.text_eq]
        exact List.mem_flatMap.2 ⟨_, ha, List.mem_singleton_self c⟩
      rw [htext c hmem] at hc
      cases hc
  | operator | opening | closing | numeral | unknown => rfl

/-! ## The tokens of a text -/

/-- How a text is cut into lexemes and which tokens these give. -/
structure TokenLaw (text : List Char) : Prop where
  cut : ∃! pieces, IsCut text pieces
  tokens : ∀ pieces, IsCut text pieces → ∀ ts, tokenize text = .ok ts ↔
    List.Forall₂ Lexeme.Gives (pieces.filter fun a => !a.isWhite) ts
  error : ∀ pieces, IsCut text pieces → ∀ e, tokenize text = .error e ↔ ∃ front a, Lexeme.LeftmostFault pieces front a e
  /-- What stands behind the fault is irrelevant, as long as it does not prolong a numeral. -/
  rightward : ∀ pieces, IsCut text pieces → ∀ front a e, Lexeme.LeftmostFault pieces front a e →
    ∀ rest : List Char, (∀ negated run, a = .numeral negated run → rest.head?.any isNumeralChar = false) →
      tokenize ((front ++ [a]).flatMap Lexeme.text ++ rest) = .error e
  /-- Numbers stand apart, and a minus that is no sign stands behind an operand. -/
  neighbours : (∀ c ∈ text, isBlank c = false) → ∀ ts, tokenize text = .ok ts →
    ∀ pre t post, ts = pre ++ t :: post → Token.MayFollow pre.getLast? t

theorem tokenLaw (text : List Char) : TokenLaw text := by
  have htokenize : ∀ pieces, IsCut text pieces → tokenize text = Token.ofLexemes pieces := by
    intro pieces h
    rw [isCut_iff.1 h]
    rfl
  have hcut : IsCut text (Lexeme.cut text) := isCut_iff.2 rfl
  refine ⟨⟨_, hcut, fun pieces h => isCut_iff.1 h⟩, ?_, ?_, ?_, ?_⟩
  · intro pieces h ts
    rw [htokenize pieces h]
    exact Token.ofLexemes_eq_ok_iff h.allStand
  · intro pieces h e
    rw [htokenize pieces h]
    exact Lexeme.ofLexemes_eq_error_iff h.allStand
  · intro pieces h front a e hfault rest hrest
    exact hfault.tokenize_append h.allStand hrest
  · intro htext ts hts pre t post hsplit
    have hgives := (Token.ofLexemes_eq_ok_iff hcut.allStand).1 hts
    have hwhite := hcut.isWhite_eq_false htext
    rw [List.filter_eq_self.2 fun a ha => by rw [hwhite a ha]; rfl] at hgives
    simpa using Token.mayFollow_of_forall₂ hgives hcut.allStand .none pre t post hsplit

/-- A sign without a run is at fault before anything behind it. -/
example : tokenize "2*-(1..0#".toList = .error (.unreadable "-") := by decide +kernel

end Calculator
