/-
  Calculator.Proofs.Lexeme — the cut, one lexeme at a time.

  `cutFrom` cuts a text that stands behind a given character, without an accumulator; it is
  `cut` where there is no such character (`cut_eq_cutFrom`). What the first lexeme is depends
  on the first character, on what stands in front of it and, for a numeral, on the run behind it.
  So in front of anything but a numeral's character a text can be cut by itself (`cutFrom_append`).
-/

import Calculator.Proofs.Form
import Calculator.Proofs.Run

namespace Calculator.Lexeme

def cutFrom (before : Option Char) : List Char → List Lexeme
  | [] => []
  | c :: rest =>
    let step := next before c rest
    step.1 :: cutFrom step.1.text.getLast? step.2
termination_by text => text.length
decreasing_by exact Nat.lt_succ_of_le (length_next_le ..)

theorem cutOnto_eq_append (done : List Lexeme) (before : Option Char) (text : List Char) :
    cutOnto done before text = done.reverse ++ cutFrom before text := by
  fun_induction cutOnto done before text with
  | case1 => simp [cutFrom]
  | case2 done before c rest step ih =>
    rw [ih, cutFrom]
    simp [step]

theorem cut_eq_cutFrom (text : List Char) : cut text = cutFrom none text := cutOnto_eq_append [] none text

/-! ## The first lexeme -/

section

variable {before : Option Char} {c : Char} {rest : List Char}

theorem next_numeral (h : isNumeralChar c) :
    next before c rest = (numeral false (c :: rest.takeWhile isNumeralChar), rest.dropWhile isNumeralChar) := if_pos h

theorem next_sign (h : operandDue before) :
    next before '-' rest = (numeral true (rest.takeWhile isNumeralChar), rest.dropWhile isNumeralChar) := by
  rw [next, if_neg (by decide), if_pos ⟨rfl, h⟩]

theorem next_of_not_numeral (hn : ¬ isNumeralChar c) (hs : ¬ (c = '-' ∧ operandDue before)) :
    next before c rest = (single c, rest) := by
  rw [next, if_neg hn, if_neg hs]

/-- The first lexeme is a numeral without a sign, one with a sign, or a single character. -/
theorem next_cases (before : Option Char) (c : Char) (rest : List Char) :
    (isNumeralChar c ∧ next before c rest = (numeral false (c :: rest.takeWhile isNumeralChar), rest.dropWhile isNumeralChar)) ∨
      (c = '-' ∧ operandDue before ∧
        next before c rest = (numeral true (rest.takeWhile isNumeralChar), rest.dropWhile isNumeralChar)) ∨
      (¬ isNumeralChar c ∧ ¬ (c = '-' ∧ operandDue before) ∧ next before c rest = (single c, rest)) := by
  by_cases hc : isNumeralChar c
  · exact .inl ⟨hc, next_numeral hc⟩
  by_cases hs : c = '-' ∧ operandDue before
  · obtain ⟨rfl, hb⟩ := hs
    exact .inr (.inl ⟨rfl, hb, next_sign hb⟩)
  · exact .inr (.inr ⟨hc, hs, next_of_not_numeral hc hs⟩)

theorem text_next_ne_nil : (next before c rest).1.text ≠ [] := by
  unfold next
  split
  · simp [text]
  split
  · simp [text]
  · simp [text_single]

theorem single_ne_numeral (c : Char) (negated : Bool) (run : List Char) : single c ≠ numeral negated run := by
  unfold single
  split
  · nofun
  split
  · nofun
  split
  · nofun
  split
  · nofun
  · nofun

theorem single_toChar (o : Operator) : single o.toChar = operator o := by cases o <;> decide

theorem next_operator (o : Operator) (h : operandDue before = false) : next before o.toChar rest = (operator o, rest) := by
  rw [next_of_not_numeral (by cases o <;> decide) (by simp [h]), single_toChar]

theorem cutFrom_operator (o : Operator) (h : operandDue before = false) :
    cutFrom before (o.toChar :: rest) = operator o :: cutFrom (some o.toChar) rest := by
  rw [cutFrom, next_operator o h]
  rfl

theorem cutFrom_opening : cutFrom before ('(' :: rest) = opening :: cutFrom (some '(') rest := by
  rw [cutFrom, next_of_not_numeral (by decide) (by simp)]
  rfl

theorem cutFrom_closing : cutFrom before (')' :: rest) = closing :: cutFrom (some ')') rest := by
  rw [cutFrom, next_of_not_numeral (by decide) (by simp)]
  rfl

end

/-! ## The lexemes behind -/

/-- A numeral in front of anything but a numeral's character is the first lexeme. -/
theorem cutFrom_numeral_append {before : Option Char} {run rest : List Char} (hne : run ≠ []) (hr : ∀ c ∈ run, isNumeralChar c)
    (h : rest.head?.any isNumeralChar = false) :
    cutFrom before (run ++ rest) = numeral false run :: cutFrom run.getLast? rest := by
  obtain ⟨c, run, rfl⟩ := List.exists_cons_of_ne_nil hne
  have hrun : ∀ d ∈ run, isNumeralChar d := fun d hd => hr d (List.mem_cons_of_mem _ hd)
  rw [List.cons_append, cutFrom, next_numeral (hr c List.mem_cons_self), takeWhile_run_append hrun h, dropWhile_run_append hrun h]
  rfl

theorem cutFrom_sign_append {before : Option Char} {run rest : List Char} (hb : operandDue before)
    (hr : ∀ c ∈ run, isNumeralChar c) (h : rest.head?.any isNumeralChar = false) :
    cutFrom before ('-' :: run ++ rest) = numeral true run :: cutFrom ('-' :: run).getLast? rest := by
  rw [List.cons_append, cutFrom, next_sign hb, takeWhile_run_append hr h, dropWhile_run_append hr h]
  rfl

/-! ## Cutting in two -/

section

variable {before : Option Char} {c : Char} {text rest : List Char}

theorem next_append (h : rest.head?.any isNumeralChar = false) :
    next before c (text ++ rest) = ((next before c text).1, (next before c text).2 ++ rest) := by
  unfold next
  rw [takeWhile_append_of_head? h, dropWhile_append_of_head? h]
  split
  · rfl
  split
  · rfl
  · rfl

/-- What a text ends with, told from its first lexeme and the rest. -/
theorem getLast?_next (before' : Option Char) :
    (next before c rest).2.getLast?.or (next before c rest).1.text.getLast? = (c :: rest).getLast?.or before' := by
  rw [← text_next before c rest, List.getLast?_append, Option.or_assoc,
    List.getLast?_eq_some_getLast text_next_ne_nil, Option.some_or]

/-- In front of anything but a numeral's character a text can be cut by itself. -/
theorem cutFrom_append (h : rest.head?.any isNumeralChar = false) :
    cutFrom before (text ++ rest) = cutFrom before text ++ cutFrom (text.getLast?.or before) rest := by
  fun_induction cutFrom before text with
  | case1 before => rfl
  | case2 before c text step ih =>
    rw [List.cons_append, cutFrom, next_append h, ih, getLast?_next before]
    rfl

/-- Of what stands in front only one thing matters: whether an operand is due. -/
theorem cutFrom_congr {before' : Option Char} (h : operandDue before = operandDue before') :
    cutFrom before text = cutFrom before' text := by
  cases text with
  | nil => rw [cutFrom, cutFrom]
  | cons c text =>
    have hn : next before c text = next before' c text := by rw [next, next, h]
    rw [cutFrom, cutFrom, hn]

end

end Calculator.Lexeme
