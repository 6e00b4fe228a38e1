/-
  Calculator.Proofs.Failure — which error a text comes to.

  (1) The form check is the only source of `invalid`: a text that passes it has no character without a
  class (`unknown_not_mem_cut`).

  (2) The tokens are made before any of them is read by the machine, and the first lexeme that cannot be
  read stops that. In a text of the right form it is the leftmost unreadable numeral
  (`ofLexemes_cut_eq_error_iff`).

  (3) So the errors of the machine (`FromMachine`) are seen only where every numeral can be read.

  Main statement: `failureLaw`.
-/

import Calculator.Proofs.Meaning
import Calculator.Proofs.Numeral

namespace Calculator

/-! ## Lexemes without a class -/

namespace Lexeme

theorem single_ne_unknown {c : Char} (hc : isExpressionChar c) (hn : ¬ isNumeralChar c) (d : Char) : single c ≠ unknown d := by
  rcases isExpressionChar_cases hc with h | rfl | ⟨o, rfl⟩ | rfl | rfl
  · exact absurd (isNumeralChar_of_isDigit h) hn
  · exact absurd rfl hn
  · rw [single_toChar]
    nofun
  · nofun
  · nofun

/-- A text of known characters has no lexeme without a class. -/
theorem unknown_not_mem_cutFrom {before : Option Char} {text : List Char} (h : ∀ c ∈ text, isExpressionChar c) (d : Char) :
    unknown d ∉ cutFrom before text := by
  fun_induction cutFrom before text with
  | case1 => exact List.not_mem_nil
  | case2 before c rest step ih =>
    have hrest : ∀ e ∈ step.2, isExpressionChar e := by
      intro e he
      apply h
      rw [← text_next before c rest]
      exact List.mem_append_right _ he
    have hstep : step.1 ≠ unknown d := by
      rcases next_cases before c rest with ⟨-, hn⟩ | ⟨-, -, hn⟩ | ⟨hc, -, hn⟩
      · rw [show step = _ from hn]
        simp
      · rw [show step = _ from hn]
        simp
      · rw [show step = _ from hn]
        exact single_ne_unknown (h c List.mem_cons_self) hc d
    intro hmem
    rcases List.mem_cons.1 hmem with he | hmem
    · exact hstep he.symm
    · exact ih hrest hmem

theorem unknown_not_mem_cut {text : List Char} (h : isWellFormed text = true) (c : Char) : unknown c ∉ cut text := by
  have hfits := everywhere_iff.1 (isWellFormed_iff.1 h).1
  rw [cut_eq_cutFrom]
  refine unknown_not_mem_cutFrom (fun d hd => ?_) c
  obtain ⟨pre, post, e⟩ := List.append_of_mem hd
  exact (hfits pre d post e).alphabet

/-- What starts further left than the lexemes behind `pre` is one of those in `pre`. -/
theorem mem_of_length_flatMap_lt {as bs pre post : List Lexeme} {a : Lexeme} (h : as ++ a :: bs = pre ++ post)
    (hlt : (as.flatMap text).length < (pre.flatMap text).length) : a ∈ pre := by
  rcases List.append_eq_append_iff.1 h with ⟨inner, rfl, htail⟩ | ⟨inner, rfl, -⟩
  · cases inner with
    | nil => simp at hlt
    | cons b inner =>
      obtain ⟨rfl, -⟩ := List.cons.inj htail
      exact List.mem_append_right _ List.mem_cons_self
  · rw [List.flatMap_append, List.length_append] at hlt
    omega

end Lexeme

/-! ## Unreadable numerals -/

theorem Token.ofLexeme_eq_error_iff {a : Lexeme} {e : EvalError} :
    ofLexeme a = .error e ↔
      (∃ negated run, a = .numeral negated run ∧ readNumeral negated run = .error e) ∨
        ∃ c, a = .unknown c ∧ e = .invalid := by
  cases a with
  | numeral negated run => simp [ofLexeme, map_eq_error]
  | unknown c => simp [ofLexeme, eq_comm]
  | blank | operator | opening | closing => simp [ofLexeme]

structure FirstUnreadable (text before : List Char) (negated : Bool) (run : List Char) : Prop extends
    NumeralAt text before negated run where
  unreadable : Unreadable run
  leftmost : ∀ before' negated' run', NumeralAt text before' negated' run' → Unreadable run' → before.length ≤ before'.length

section

variable {text : List Char} (hform : isWellFormed text = true)

include hform

/-- In a text of the right form only a numeral can be a lexeme that cannot be read. -/
theorem ofLexeme_eq_error_iff_of_mem_cut {a : Lexeme} (ha : a ∈ Lexeme.cut text) {e : EvalError} :
    Token.ofLexeme a = .error e ↔
      ∃ negated run, a = .numeral negated run ∧ Unreadable run ∧ e = .unreadable (String.ofList a.text) := by
  have hfits := (isWellFormed_iff.1 hform).1
  rw [Token.ofLexeme_eq_error_iff]
  constructor
  · intro h
    rcases h with ⟨negated, run, rfl, h⟩ | ⟨c, rfl, -⟩
    · obtain ⟨before, hat⟩ := numeral_mem_cut_iff.1 ha
      exact ⟨negated, run, rfl, (hat.readNumeral_eq_error_iff hfits).1 h⟩
    · exact absurd ha (Lexeme.unknown_not_mem_cut hform c)
  · intro h
    obtain ⟨negated, run, rfl, h⟩ := h
    obtain ⟨before, hat⟩ := numeral_mem_cut_iff.1 ha
    exact .inl ⟨negated, run, rfl, (hat.readNumeral_eq_error_iff hfits).2 h⟩

/-- Behind lexemes that can be read, an unreadable numeral is the leftmost one. -/
theorem firstUnreadable_of_cut {pre post : List Lexeme} {negated : Bool} {run : List Char} {ts : List Token}
    (hcut : Lexeme.cut text = pre ++ .numeral negated run :: post) (hpre : Token.ofLexemes pre = .ok ts) (hun : Unreadable run) :
    FirstUnreadable text (pre.flatMap Lexeme.text) negated run := by
  refine ⟨numeralAt_iff_cut.2 ⟨pre, post, hcut, rfl⟩, hun, ?_⟩
  intro before' negated' run' hat' hun'
  refine Nat.le_of_not_lt fun hlt => ?_
  obtain ⟨as, bs, hcut', rfl⟩ := numeralAt_iff_cut.1 hat'
  have hmem := numeral_mem_cut_iff.2 ⟨_, hat'⟩
  obtain ⟨t, ht⟩ := Token.exists_ofLexeme_of_mem hpre _ (Lexeme.mem_of_length_flatMap_lt (hcut'.symm.trans hcut) hlt)
  rw [(ofLexeme_eq_error_iff_of_mem_cut hform hmem).2 ⟨negated', run', rfl, hun', rfl⟩] at ht
  cases ht

/-- The lexemes in front of the leftmost one can be read. -/
theorem exists_ofLexemes_of_firstUnreadable {pre post : List Lexeme} {negated : Bool} {run : List Char}
    (hcut : Lexeme.cut text = pre ++ .numeral negated run :: post)
    (h : FirstUnreadable text (pre.flatMap Lexeme.text) negated run) : ∃ ts, Token.ofLexemes pre = .ok ts := by
  apply Token.exists_ofLexemes
  intro a ha
  cases hread : Token.ofLexeme a with
  | ok t => exact ⟨t, rfl⟩
  | error e =>
    have hmem : a ∈ Lexeme.cut text := hcut ▸ List.mem_append_left _ ha
    obtain ⟨negated', run', rfl, hun', -⟩ := (ofLexeme_eq_error_iff_of_mem_cut hform hmem).1 hread
    obtain ⟨front, inner, rfl⟩ := List.append_of_mem ha
    have hat : NumeralAt text (front.flatMap Lexeme.text) negated' run' :=
      numeralAt_iff_cut.2 ⟨front, inner ++ .numeral negated run :: post, by simp [hcut], rfl⟩
    have hle := h.leftmost _ _ _ hat hun'
    have hpos := List.length_pos_iff.2 hat.text_ne_nil
    simp only [List.flatMap_append, List.flatMap_cons, List.length_append] at hle
    omega

/-- The tokens of such a text are missing just if a numeral cannot be read, and the error names the
leftmost one. -/
theorem ofLexemes_cut_eq_error_iff {e : EvalError} :
    Token.ofLexemes (Lexeme.cut text) = .error e ↔
      ∃ before negated run, FirstUnreadable text before negated run ∧
        e = .unreadable (String.ofList (Lexeme.numeral negated run).text) := by
  constructor
  · intro h
    obtain ⟨pre, a, post, ts, hcut, hpre, ha⟩ := Token.exists_of_ofLexemes_eq_error h
    have hmem : a ∈ Lexeme.cut text := hcut ▸ List.mem_append_right _ List.mem_cons_self
    obtain ⟨negated, run, rfl, hun, rfl⟩ := (ofLexeme_eq_error_iff_of_mem_cut hform hmem).1 ha
    exact ⟨_, negated, run, firstUnreadable_of_cut hform hcut hpre hun, rfl⟩
  · intro h
    obtain ⟨before, negated, run, h, rfl⟩ := h
    have hmem := numeral_mem_cut_iff.2 ⟨_, h.toNumeralAt⟩
    obtain ⟨pre, post, hcut, rfl⟩ := numeralAt_iff_cut.1 h.toNumeralAt
    obtain ⟨ts, hts⟩ := exists_ofLexemes_of_firstUnreadable hform hcut h
    rw [hcut]
    exact Token.ofLexemes_eq_error hts ((ofLexeme_eq_error_iff_of_mem_cut hform hmem).2 ⟨negated, run, rfl, h.unreadable, rfl⟩)

/-- Where there are tokens every numeral can be read. -/
theorem not_unreadable_of_ofLexemes {ts : List Token} (h : Token.ofLexemes (Lexeme.cut text) = .ok ts) {before : List Char}
    {negated : Bool} {run : List Char} (hat : NumeralAt text before negated run) : ¬ Unreadable run := by
  intro hun
  have hmem := numeral_mem_cut_iff.2 ⟨before, hat⟩
  obtain ⟨t, ht⟩ := Token.exists_ofLexeme_of_mem h _ hmem
  rw [(ofLexeme_eq_error_iff_of_mem_cut hform hmem).2 ⟨negated, run, rfl, hun, rfl⟩] at ht
  cases ht

theorem calculate_of_isWellFormed : calculate text = Token.ofLexemes (Lexeme.cut text) >>= evaluateTokens := if_pos hform

end

/-! ## Errors of the machine -/

def EvalError.FromMachine (e : EvalError) : Prop := e = .divisionByZero ∨ e = .malformed

namespace Machine

variable {k : Machine} {e : EvalError}

theorem fromMachine_unwind {due : Operator → Bool} {operands : List Binary64} {pending : List Pending}
    (h : unwind due operands pending = .error e) : e.FromMachine := by
  induction pending generalizing operands with
  | nil => cases h
  | cons top pending ih =>
    cases top with
    | opening => cases h
    | operator o =>
      unfold unwind at h
      split at h
      · split at h
        · split at h
          · exact ih h
          · next ha =>
            cases h
            exact .inl (Phrase.apply_eq_error_iff.1 ha).2
        · cases h
          exact .inr rfl
      · cases h

theorem fromMachine_step {t : Token} (h : k.step t = .error e) : e.FromMachine := by
  cases t with
  | number x => cases h
  | opening => cases h
  | operator o =>
    rw [step_operator] at h
    rcases bind_eq_error.1 h with h | ⟨_, -, h⟩
    · exact fromMachine_unwind h
    · cases h
  | closing =>
    rw [step_closing] at h
    rcases bind_eq_error.1 h with h | ⟨_, -, h⟩
    · exact fromMachine_unwind h
    · unfold close at h
      split at h
      · cases h
      · cases h
        exact .inr rfl

theorem fromMachine_run {ts : List Token} (h : k.run ts = .error e) : e.FromMachine := by
  induction ts generalizing k with
  | nil => cases h
  | cons t ts ih =>
    rw [run_cons] at h
    rcases bind_eq_error.1 h with h | ⟨m, -, h⟩
    · exact fromMachine_step h
    · exact ih h

theorem fromMachine_evaluateTokens {ts : List Token} (h : evaluateTokens ts = .error e) : e.FromMachine := by
  rcases bind_eq_error.1 h with h | ⟨k, -, h⟩
  · exact fromMachine_run h
  · rw [finish_eq] at h
    rcases bind_eq_error.1 h with h | ⟨m, -, h⟩
    · exact fromMachine_unwind h
    · unfold only at h
      split at h
      · cases h
      · cases h
        exact .inr rfl

end Machine

/-! ## Errors of a text -/

/-- Which error a text comes to, where it comes to one. -/
structure FailureLaw (text : List Char) : Prop where
  invalid : calculate text = .error .invalid ↔ isWellFormed text = false
  known : isWellFormed text = true → ∀ c, Lexeme.unknown c ∉ Lexeme.cut text
  /-- Whatever else is wrong with the text. -/
  unreadable : isWellFormed text = true → ∀ t, calculate text = .error (.unreadable t) ↔
    ∃ before negated run, FirstUnreadable text before negated run ∧ t = String.ofList (Lexeme.numeral negated run).text
  machine : calculate text = .error .divisionByZero ∨ calculate text = .error .malformed →
    isWellFormed text = true ∧ ∀ before negated run, NumeralAt text before negated run → ¬ Unreadable run

theorem failureLaw (text : List Char) : FailureLaw text := by
  cases hform : isWellFormed text with
  | false =>
    have hinvalid : calculate text = .error .invalid := if_neg (by simp [hform])
    exact ⟨⟨fun _ => hform, fun _ => hinvalid⟩, by simp [hform], by simp [hform], by simp [hinvalid]⟩
  | true =>
    have herror (e : EvalError) : calculate text = .error e ↔
        Token.ofLexemes (Lexeme.cut text) = .error e ∨
          ∃ ts, Token.ofLexemes (Lexeme.cut text) = .ok ts ∧ evaluateTokens ts = .error e := by
      rw [calculate_of_isWellFormed hform, bind_eq_error]
    have htokens (e : EvalError) := @ofLexemes_cut_eq_error_iff _ hform e
    refine ⟨?_, fun _ => Lexeme.unknown_not_mem_cut hform, fun _ t => ?_, fun h => ⟨hform, ?_⟩⟩
    · simp only [hform, Bool.true_eq_false, iff_false, herror, htokens]
      rintro (⟨_, _, _, -, ⟨⟩⟩ | ⟨ts, -, h⟩)
      rcases Machine.fromMachine_evaluateTokens h with ⟨⟨⟩⟩ | ⟨⟨⟩⟩
    · simp only [herror, htokens, EvalError.unreadable.injEq]
      refine or_iff_left ?_
      rintro ⟨ts, -, h⟩
      rcases Machine.fromMachine_evaluateTokens h with ⟨⟨⟩⟩ | ⟨⟨⟩⟩
    · intro before negated run hat
      have hts : ∃ ts, Token.ofLexemes (Lexeme.cut text) = .ok ts := by
        simp only [herror, htokens] at h
        rcases h with (⟨_, _, _, -, ⟨⟩⟩ | ⟨ts, hts, -⟩) | (⟨_, _, _, -, ⟨⟩⟩ | ⟨ts, hts, -⟩)
        · exact ⟨ts, hts⟩
        · exact ⟨ts, hts⟩
      obtain ⟨ts, hts⟩ := hts
      exact not_unreadable_of_ofLexemes hform hts hat

/-- The numeral at the end comes before the division at the start. -/
example : calculate "1/0+-1.5.5".toList = .error (.unreadable "-1.5.5") := by decide +kernel

end Calculator
