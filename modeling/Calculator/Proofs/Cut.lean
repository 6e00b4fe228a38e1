/-
  Calculator.Proofs.Cut — the only way in which a text can be cut.

  A lexeme stands between two characters of the text, and those decide whether it may stand there
  (`Lexeme.Stands`): a run of digits and points is a longest one, a minus is a sign just where an operand
  is due, and an unknown character is of no class. A text can be cut into lexemes that may stand in their
  places in one way only, and in that way it is cut (`isCut_iff`): each of them is the first lexeme of what is
  left of the text (`cutFrom_text_append`).
-/

import Mathlib.Tactic.ByContra
import Calculator.Proofs.Lexeme

namespace Calculator

/-! ## Where lexemes may stand -/

namespace Lexeme

/-- The run of a numeral between two characters: as long as it can be, with a sign in front just where an
operand is due. -/
structure IsNumeral (before after : Option Char) (negated : Bool) (run : List Char) : Prop where
  isNumeralChar_of_mem : ∀ c ∈ run, isNumeralChar c
  behind : after.any isNumeralChar = false
  signed : negated = true → operandDue before = true
  unsigned : negated = false → run ≠ [] ∧ before.any isNumeralChar = false

inductive Stands (before after : Option Char) : Lexeme → Prop where
  | blank {c : Char} (h : isBlank c = true) : Stands before after (.blank c)
  /-- A minus where an operand is due is a sign. -/
  | operator {o : Operator} (h : o = .sub → operandDue before = false) : Stands before after (.operator o)
  | opening : Stands before after .opening
  | closing : Stands before after .closing
  | numeral {negated : Bool} {run : List Char} (h : IsNumeral before after negated run) :
      Stands before after (.numeral negated run)
  | unknown {c : Char} (hblank : isBlank c = false) (hchar : isExpressionChar c = false) : Stands before after (.unknown c)

/-- All of the lexemes may stand where they do, in a row between the character `before` and the text `rest`. -/
def AllStand (before : Option Char) (rest : List Char) : List Lexeme → Prop
  | [] => True
  | a :: as => a.Stands before (as.flatMap text ++ rest).head? ∧ AllStand a.text.getLast? rest as

end Lexeme

/-- The lexemes make up the text, and each of them may stand in its place. -/
structure IsCut (text : List Char) (pieces : List Lexeme) : Prop where
  text_eq : pieces.flatMap Lexeme.text = text
  allStand : Lexeme.AllStand none [] pieces

/-! ## Characters have one class -/

section

variable {c : Char}

theorem isBlank_eq_false_of_isNumeralChar (h : isNumeralChar c) : isBlank c = false := by
  rcases Bool.or_eq_true_iff.1 h with hdigit | hpoint
  · have hcode : 48 ≤ c.toNat ∧ c.toNat ≤ 57 := by
      simpa [Char.isDigit, UInt32.le_iff_toNat_le] using hdigit
    simp only [isBlank, blankRanges, List.any_cons, List.any_nil, Bool.or_false, Bool.or_eq_false_iff,
      Bool.and_eq_false_iff, decide_eq_false_iff_not]
    omega
  · rw [eq_of_beq hpoint]
    rfl

end

namespace Lexeme

section

variable {before after : Option Char} {c : Char} {rest : List Char} {a : Lexeme} {as bs : List Lexeme}

theorem single_of_isBlank (h : isBlank c = true) : single c = blank c := if_pos h

theorem single_of_unknown (hblank : isBlank c = false) (hchar : isExpressionChar c = false) : single c = unknown c := by
  simp only [isExpressionChar, Bool.or_eq_false_iff, beq_eq_false_iff_ne] at hchar
  obtain ⟨⟨⟨-, ho⟩, hopening⟩, hclosing⟩ := hchar
  have hnone : Operator.ofChar? c = none := by simpa [isOperator] using ho
  rw [single, if_neg (by simp [hblank]), if_neg hopening, if_neg hclosing, hnone]

/-- A single character that is no sign may stand anywhere, as the lexeme it is. -/
theorem stands_single (hn : ¬ isNumeralChar c) (hs : ¬ (c = '-' ∧ operandDue before)) : (single c).Stands before after := by
  unfold single
  split
  · next hblank => exact .blank hblank
  next hblank =>
  split
  · exact .opening
  next hopening =>
  split
  · exact .closing
  next hclosing =>
  split
  · next o ho =>
    refine .operator fun hsub => ?_
    subst hsub
    simpa [Operator.ofChar?_eq_some_iff.1 ho, Operator.toChar] using hs
  · next ho =>
    refine .unknown (by simpa using hblank) ?_
    simp [isExpressionChar, isOperator, hn, ho, hopening, hclosing]

/-- What may stand somewhere is a numeral or a single character that is no sign. -/
theorem Stands.numeral_or_single (h : a.Stands before after) :
    (∃ negated run, a = .numeral negated run ∧ IsNumeral before after negated run) ∨
      ∃ c, a = single c ∧ ¬ isNumeralChar c ∧ ¬ (c = '-' ∧ operandDue before) := by
  cases h with
  | numeral h => exact .inl ⟨_, _, rfl, h⟩
  | @blank c h =>
    refine .inr ⟨c, (single_of_isBlank h).symm, fun hc => ?_, ?_⟩
    · rw [isBlank_eq_false_of_isNumeralChar hc] at h
      cases h
    · rintro ⟨rfl, -⟩
      cases h
  | @operator o h =>
    refine .inr ⟨o.toChar, (single_toChar o).symm, by cases o <;> decide, ?_⟩
    intro hsign
    obtain ⟨hminus, hdue⟩ := hsign
    rw [h (Option.some.inj (Operator.ofChar?_eq_some_iff.2 hminus.symm)).symm] at hdue
    cases hdue
  | opening => exact .inr ⟨'(', rfl, by decide, by simp⟩
  | closing => exact .inr ⟨')', rfl, by decide, by simp⟩
  | @unknown c hblank hchar =>
    refine .inr ⟨c, (single_of_unknown hblank hchar).symm, fun hc => ?_, ?_⟩
    · rw [isExpressionChar_of_isNumeralChar hc] at hchar
      cases hchar
    · rintro ⟨rfl, -⟩
      cases hchar

theorem Stands.text_ne_nil (h : a.Stands before after) : a.text ≠ [] := by
  cases h with
  | @numeral negated run h =>
    cases negated with
    | true => exact List.cons_ne_nil _ _
    | false => exact (h.unsigned rfl).1
  | blank | operator | opening | closing | unknown => exact List.cons_ne_nil _ _

/-! ## One way to cut -/

/-- A lexeme that may stand in front of the rest is the first one. -/
theorem cutFrom_text_append (h : a.Stands before rest.head?) :
    cutFrom before (a.text ++ rest) = a :: cutFrom a.text.getLast? rest := by
  rcases h.numeral_or_single with ⟨negated, run, rfl, hrun⟩ | ⟨c, rfl, hn, hs⟩
  · cases negated with
    | true => exact cutFrom_sign_append (hrun.signed rfl) hrun.isNumeralChar_of_mem hrun.behind
    | false => exact cutFrom_numeral_append (hrun.unsigned rfl).1 hrun.isNumeralChar_of_mem hrun.behind
  · rw [text_single, List.singleton_append, cutFrom, next_of_not_numeral hn hs, text_single]

/-- Lexemes that may stand in front of the rest are the first ones. -/
theorem cutFrom_flatMap_append (h : AllStand before rest as) :
    cutFrom before (as.flatMap text ++ rest) = as ++ cutFrom ((as.flatMap text).getLast?.or before) rest := by
  induction as generalizing before with
  | nil => rfl
  | cons a as ih =>
    obtain ⟨ha, has⟩ := h
    rw [List.flatMap_cons, List.append_assoc, cutFrom_text_append ha, ih has, List.getLast?_append, Option.or_assoc,
      List.getLast?_eq_some_getLast ha.text_ne_nil, Option.some_or]
    rfl

/-- The first lexeme may stand where it is, if no numeral reaches into the text. -/
theorem stands_next (h : before.any isNumeralChar = true → isNumeralChar c = false) :
    (next before c rest).1.Stands before (next before c rest).2.head? := by
  rcases next_cases before c rest with ⟨hc, hnext⟩ | ⟨rfl, hdue, hnext⟩ | ⟨hn, hs, hnext⟩
  · rw [hnext]
    have hfront : before.any isNumeralChar = false := by
      by_contra hfront
      rw [h (by simpa using hfront)] at hc
      cases hc
    exact .numeral ⟨List.forall_mem_cons.2 ⟨hc, of_mem_takeWhile⟩, head?_dropWhile rest, by simp,
      fun _ => ⟨List.cons_ne_nil _ _, hfront⟩⟩
  · rw [hnext]
    exact .numeral ⟨of_mem_takeWhile, head?_dropWhile rest, fun _ => hdue, by simp⟩
  · rw [hnext]
    exact stands_single hn hs

/-- No numeral reaches beyond the first lexeme. -/
theorem head?_next (h : (next before c rest).1.text.getLast?.any isNumeralChar = true) :
    (next before c rest).2.head?.any isNumeralChar = false := by
  rcases next_cases before c rest with ⟨-, hnext⟩ | ⟨-, -, hnext⟩ | ⟨hn, -, hnext⟩
  · rw [hnext]
    exact head?_dropWhile rest
  · rw [hnext]
    exact head?_dropWhile rest
  · rw [hnext, text_single] at h
    exact absurd h hn

theorem flatMap_text_cutFrom (before : Option Char) (text : List Char) : (cutFrom before text).flatMap Lexeme.text = text := by
  have h := flatMap_text_cutOnto [] before text
  rwa [cutOnto_eq_append] at h

theorem allStand_cutFrom (before : Option Char) (text : List Char)
    (h : before.any isNumeralChar = true → text.head?.any isNumeralChar = false) : AllStand before [] (cutFrom before text) := by
  fun_induction cutFrom before text with
  | case1 => trivial
  | case2 before c rest step ih =>
    refine ⟨?_, ih head?_next⟩
    rw [flatMap_text_cutFrom, List.append_nil]
    exact stands_next fun hb => by simpa using h hb

end

end Lexeme

/-- A text is cut in the only way it can be. -/
theorem isCut_iff {text : List Char} {pieces : List Lexeme} : IsCut text pieces ↔ pieces = Lexeme.cut text := by
  rw [Lexeme.cut_eq_cutFrom]
  constructor
  · intro h
    obtain ⟨rfl, h⟩ := h
    have hcut := Lexeme.cutFrom_flatMap_append h
    rw [List.append_nil, Lexeme.cutFrom, List.append_nil] at hcut
    exact hcut.symm
  · intro h
    rw [h]
    exact ⟨Lexeme.flatMap_text_cutFrom none text, Lexeme.allStand_cutFrom none text (by simp)⟩

end Calculator
