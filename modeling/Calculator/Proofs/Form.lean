/-
  Calculator.Proofs.Form — the language of the form check.

  The scan keeps a depth and two flags. None of them carries more than the text says by
  itself: whether a text has the form of an expression depends on each character and its two
  neighbours (`Fits`), on how the parentheses nest (`Nested`) and on the last character.

  Main statement: `isWellFormed_iff_hasForm`. On the way, `Scan.Tracks` says what the flags
  stand for: where a minus would be a sign is just where no operand has ended.
-/

import Calculator.Form
import Calculator.Lexeme

namespace Calculator

/-! ## Characters -/

def isExpressionChar (c : Char) : Bool := isNumeralChar c || isOperator c || c == '(' || c == ')'

def endsOperand (c : Char) : Bool := c.isDigit || c == ')'

theorem isOperator_iff {c : Char} : isOperator c = true ↔ ∃ o : Operator, c = o.toChar := by
  unfold isOperator
  rw [Option.isSome_iff_exists]
  simp only [Operator.ofChar?_eq_some_iff]

theorem ne_of_isDigit {c : Char} (h : c.isDigit) : c ≠ '.' ∧ c ≠ '(' ∧ c ≠ ')' ∧ ∀ o : Operator, c ≠ o.toChar := by
  refine ⟨?_, ?_, ?_, ?_⟩
  · intro e
    subst e
    cases h
  · intro e
    subst e
    cases h
  · intro e
    subst e
    cases h
  · intro o e
    subst e
    cases o <;> cases h

section

variable {c : Char}

theorem isNumeralChar_of_isDigit (h : c.isDigit) : isNumeralChar c = true := by simp [isNumeralChar, h]

theorem isExpressionChar_of_isNumeralChar (h : isNumeralChar c) : isExpressionChar c = true := by simp [isExpressionChar, h]

theorem endsOperand_of_isDigit (h : c.isDigit) : endsOperand c = true := by simp [endsOperand, h]

theorem isOperator_of_isDigit (h : c.isDigit) : isOperator c = false := by
  rw [Bool.eq_false_iff]
  intro ho
  obtain ⟨o, rfl⟩ := isOperator_iff.1 ho
  exact (ne_of_isDigit h).2.2.2 o rfl

theorem operandDue_of_isDigit (h : c.isDigit) : operandDue (some c) = false := by
  simp [operandDue, isOperator_of_isDigit h, (ne_of_isDigit h).2.1]

theorem operandDue_of_isNumeralChar (h : isNumeralChar c) : operandDue (some c) = false := by
  rcases Bool.or_eq_true_iff.1 h with hdigit | hpoint
  · exact operandDue_of_isDigit hdigit
  · rw [eq_of_beq hpoint]
    rfl

theorem isExpressionChar_cases (h : isExpressionChar c) :
    c.isDigit ∨ c = '.' ∨ (∃ o : Operator, c = o.toChar) ∨ c = '(' ∨ c = ')' := by
  unfold isExpressionChar isNumeralChar at h
  simp only [Bool.or_eq_true, beq_iff_eq, isOperator_iff] at h
  rcases h with (((h | h) | h) | h) | h
  · exact .inl h
  · exact .inr (.inl h)
  · exact .inr (.inr (.inl h))
  · exact .inr (.inr (.inr (.inl h)))
  · exact .inr (.inr (.inr (.inr h)))

end

@[simp] theorem operandDue_toChar (o : Operator) : operandDue (some o.toChar) = true := by cases o <;> rfl

/-- What the form of an expression asks of a text. -/
structure HasForm (text : List Char) : Prop where
  ne_nil : text ≠ []
  alphabet : ∀ c ∈ text, isExpressionChar c
  point : ∀ pre post, text = pre ++ '.' :: post → pre.getLast?.any Char.isDigit ∧ post.head?.any Char.isDigit
  /-- A minus is asked nothing. -/
  operator : ∀ pre c post, text = pre ++ c :: post → c = '+' ∨ c = '*' ∨ c = '/' → pre.getLast?.any endsOperand
  closes_le : ∀ pre, pre <+: text → pre.count ')' ≤ pre.count '('
  closes_eq : text.count ')' = text.count '('
  last : text.getLast?.any endsOperand

/-! ## Parentheses -/

/-- With `depth` parentheses open in front of it, the text closes them and its own, and closes
none before it is opened. -/
def Nested (depth : Nat) : List Char → Prop
  | [] => depth = 0
  | c :: rest =>
    if c = '(' then Nested (depth + 1) rest
    else if c = ')' then ∃ outer, depth = outer + 1 ∧ Nested outer rest
    else Nested depth rest

theorem nested_cons_of_ne {depth : Nat} {c : Char} {rest : List Char} (ho : c ≠ '(') (hc : c ≠ ')') :
    Nested depth (c :: rest) ↔ Nested depth rest := by
  simp [Nested, ho, hc]

theorem forall_prefix_cons {P : List Char → Prop} {c : Char} {text : List Char} :
    (∀ pre, pre <+: c :: text → P pre) ↔ P [] ∧ ∀ pre, pre <+: text → P (c :: pre) := by
  constructor
  · intro h
    exact ⟨h [] List.nil_prefix, fun pre hp => h _ (List.cons_prefix_cons.2 ⟨rfl, hp⟩)⟩
  · intro ⟨h0, h⟩ pre hp
    rcases List.prefix_cons_iff.1 hp with rfl | ⟨pre, rfl, hp⟩
    · exact h0
    · exact h pre (List.cons_prefix_cons.1 hp).2

/-- Nesting in terms of counts. -/
theorem nested_iff_count {depth : Nat} {text : List Char} :
    Nested depth text ↔
      (∀ pre, pre <+: text → pre.count ')' ≤ depth + pre.count '(') ∧ text.count ')' = depth + text.count '(' := by
  induction text generalizing depth with
  | nil => simp [Nested, eq_comm]
  | cons c rest ih =>
    rw [forall_prefix_cons]
    unfold Nested
    split
    · next ho =>
      subst ho
      simp [ih, Nat.add_right_comm, Nat.add_assoc]
    split
    · next hc =>
      subst hc
      simp only [ih]
      constructor
      · intro h
        obtain ⟨outer, rfl, hle, heq⟩ := h
        refine ⟨⟨by simp, fun pre hp => ?_⟩, ?_⟩
        · have := hle pre hp
          simp; omega
        · simp; omega
      · intro h
        obtain ⟨⟨-, hle⟩, heq⟩ := h
        -- the prefix that ends here needs an open parenthesis
        have h0 := hle [] List.nil_prefix
        simp at h0 heq
        refine ⟨depth - 1, by omega, fun pre hp => ?_, by omega⟩
        have := hle pre hp
        simp at this; omega
    · next ho hc => simp [ih, List.count_cons_of_ne, ho, hc]

/-! ## Neighbours -/

/-- `P` holds of each character between its neighbours; `before` stands in front of the text. -/
def Everywhere (P : Option Char → Char → Option Char → Prop) (before : Option Char) : List Char → Prop
  | [] => True
  | c :: rest => P before c rest.head? ∧ Everywhere P (some c) rest

theorem getLast?_cons_or {c : Char} {pre : List Char} {before : Option Char} :
    (c :: pre).getLast?.or before = pre.getLast?.or (some c) := by
  rw [List.getLast?_cons]
  cases pre.getLast? <;> rfl

theorem everywhere_iff {P : Option Char → Char → Option Char → Prop} {before : Option Char} {text : List Char} :
    Everywhere P before text ↔
      ∀ pre c post, text = pre ++ c :: post → P (pre.getLast?.or before) c post.head? := by
  induction text generalizing before with
  | nil => simp [Everywhere]
  | cons d rest ih =>
    rw [Everywhere, ih]
    constructor
    · intro ⟨hd, hrest⟩ pre c post h
      cases pre with
      | nil => cases h; exact hd
      | cons a pre =>
        obtain ⟨rfl, rfl⟩ := List.cons.inj h
        rw [getLast?_cons_or]
        exact hrest pre c post rfl
    · intro h
      refine ⟨h [] d rest rfl, fun pre c post hr => ?_⟩
      have := h (d :: pre) c post (by rw [hr]; rfl)
      rwa [getLast?_cons_or] at this

structure Fits (before : Option Char) (c : Char) (after : Option Char) : Prop where
  alphabet : isExpressionChar c
  point : c = '.' → before.any Char.isDigit ∧ after.any Char.isDigit
  operator : c = '+' ∨ c = '*' ∨ c = '/' → before.any endsOperand

namespace Fits

variable {before after : Option Char} {c : Char}

theorem of_digit (hc : c.isDigit) : Fits before c after := by
  obtain ⟨hpoint, -, -, hop⟩ := ne_of_isDigit hc
  refine ⟨?_, fun e => absurd e hpoint, ?_⟩
  · simp [isExpressionChar, isNumeralChar_of_isDigit hc]
  · intro h
    rcases h with e | e | e
    · exact absurd e (hop .add)
    · exact absurd e (hop .mul)
    · exact absurd e (hop .div)

theorem of_point (hb : before.any Char.isDigit) (ha : after.any Char.isDigit) : Fits before '.' after :=
  ⟨rfl, fun _ => ⟨hb, ha⟩, by simp⟩

/-- A minus fits anywhere. -/
theorem of_operator {o : Operator} (hb : o ≠ .sub → before.any endsOperand) : Fits before o.toChar after := by
  cases o with
  | sub => exact ⟨rfl, by simp [Operator.toChar], by simp [Operator.toChar]⟩
  | add => exact ⟨rfl, by simp [Operator.toChar], fun _ => hb (by simp)⟩
  | mul => exact ⟨rfl, by simp [Operator.toChar], fun _ => hb (by simp)⟩
  | div => exact ⟨rfl, by simp [Operator.toChar], fun _ => hb (by simp)⟩

theorem of_opening : Fits before '(' after := ⟨rfl, by simp, by simp⟩

theorem of_closing : Fits before ')' after := ⟨rfl, by simp, by simp⟩

/-- An operator other than a minus stands behind an operand. -/
theorem any_endsOperand {o : Operator} (h : Fits before o.toChar after) (ho : o ≠ .sub) : before.any endsOperand := by
  apply h.operator
  cases o with
  | sub => exact absurd rfl ho
  | add => exact .inl rfl
  | mul => exact .inr (.inl rfl)
  | div => exact .inr (.inr rfl)

end Fits

/-- The form of a text, sorted into what concerns neighbours, parentheses and the end. -/
theorem hasForm_iff {text : List Char} :
    HasForm text ↔ Everywhere Fits none text ∧ Nested 0 text ∧ text.getLast?.any endsOperand := by
  simp only [everywhere_iff, Option.or_none, nested_iff_count, Nat.zero_add]
  constructor
  · intro h
    exact ⟨fun pre c post e => ⟨h.alphabet c (by simp [e]), fun hc => h.point pre post (hc ▸ e), h.operator pre c post e⟩,
      ⟨h.closes_le, h.closes_eq⟩, h.last⟩
  · intro ⟨hfits, ⟨hle, heq⟩, hlast⟩
    refine ⟨?_, ?_, fun pre post e => (hfits pre '.' post e).point rfl,
      fun pre c post e => (hfits pre c post e).operator, hle, heq, hlast⟩
    · intro e
      subst e
      cases hlast
    · intro c hc
      obtain ⟨pre, post, e⟩ := List.append_of_mem hc
      exact (hfits pre c post e).alphabet

/-! ## The scan -/

namespace Scan

/-- What the flags of a scan say of the character in front of it. A point belongs to an
operand, and the digit it needs is still to come. -/
structure Tracks (k : Scan) (before after : Option Char) : Prop where
  afterOperand : k.afterOperand = before.any fun c => isNumeralChar c || c == ')'
  inNumeral : k.inNumeral = before.any isNumeralChar
  known : before.all isExpressionChar
  point : before = some '.' → after.any Char.isDigit

variable {k : Scan} {before after : Option Char} {c : Char} {depth : Nat}

namespace Tracks

theorem start : Scan.start.Tracks none after := ⟨rfl, rfl, rfl, nofun⟩

theorem of_digit (hc : c.isDigit) : Tracks ⟨depth, true, true⟩ (some c) after := by
  have hn := isNumeralChar_of_isDigit hc
  refine ⟨?_, hn.symm, ?_, ?_⟩
  · simp [hn]
  · simp [isExpressionChar, hn]
  · intro e
    exact absurd (Option.some.inj e) (ne_of_isDigit hc).1

theorem of_point (ha : after.any Char.isDigit) : Tracks ⟨depth, true, true⟩ (some '.') after := ⟨rfl, rfl, rfl, fun _ => ha⟩

theorem of_operator (o : Operator) : Tracks ⟨depth, false, false⟩ (some o.toChar) after := by
  cases o <;> exact ⟨rfl, rfl, rfl, by simp [Operator.toChar]⟩

theorem of_opening : Tracks ⟨depth, false, false⟩ (some '(') after := ⟨rfl, rfl, rfl, by simp⟩

theorem of_closing : Tracks ⟨depth, true, false⟩ (some ')') after := ⟨rfl, rfl, rfl, by simp⟩

/-- In front of anything but a digit the flags say what the character is, and a minus would be
a sign just where no operand has ended. -/
theorem flags (h : k.Tracks before after) (hd : ¬ after.any Char.isDigit) :
    before.any Char.isDigit = k.inNumeral ∧ before.any endsOperand = k.afterOperand ∧ operandDue before = !k.afterOperand := by
  rw [h.inNumeral, h.afterOperand]
  cases before with
  | none => exact ⟨rfl, rfl, rfl⟩
  | some b =>
    rcases isExpressionChar_cases h.known with hb | rfl | ⟨o, rfl⟩ | rfl | rfl
    · simp [hb, isNumeralChar_of_isDigit hb, endsOperand_of_isDigit hb, operandDue_of_isDigit hb]
    · exact absurd (h.point rfl) hd
    · cases o <;> exact ⟨rfl, rfl, rfl⟩
    · exact ⟨rfl, rfl, rfl⟩
    · exact ⟨rfl, rfl, rfl⟩

end Tracks

/-- A step that is not refused reads a character that fits. -/
theorem step_some {next : Scan} (h : k.Tracks before (some c)) (hs : k.step before c after = some next) :
    Fits before c after ∧ next.Tracks (some c) after ∧ ∀ rest, Nested k.depth (c :: rest) ↔ Nested next.depth rest := by
  unfold step at hs
  split at hs
  · next hd =>
    cases hs
    obtain ⟨-, ho, hc, -⟩ := ne_of_isDigit hd
    exact ⟨.of_digit hd, .of_digit hd, fun rest => nested_cons_of_ne ho hc⟩
  next hd =>
  obtain ⟨hdigit, hends, hdue⟩ := h.flags (by simpa using hd)
  split at hs
  · next hp =>
    subst hp
    split at hs
    · next hb =>
      cases hs
      obtain ⟨hin, ha⟩ := Bool.and_eq_true_iff.1 hb
      rw [hin] at hdigit
      have hoperand : k.afterOperand = true := by
        obtain ⟨b, rfl, hb⟩ := (Option.any_eq_true _ _).1 hdigit
        rw [← hends]
        exact endsOperand_of_isDigit hb
      obtain ⟨depth, afterOperand, inNumeral⟩ := k
      subst hin hoperand
      exact ⟨.of_point hdigit ha, .of_point ha, fun rest => nested_cons_of_ne (by decide) (by decide)⟩
    · cases hs
  next hp =>
  split at hs
  · next ho =>
    obtain ⟨o, rfl⟩ := isOperator_iff.1 ho
    split at hs
    · next hb =>
      cases hs
      refine ⟨.of_operator fun hsub => ?_, .of_operator o, fun rest => ?_⟩
      · have hne : (o.toChar == '-') = false := by cases o <;> trivial
        rw [hends]
        simpa [hne] using hb
      · exact nested_cons_of_ne (by cases o <;> decide) (by cases o <;> decide)
    · cases hs
  next ho =>
  split at hs
  · next hc =>
    cases hs
    subst hc
    exact ⟨.of_opening, .of_opening, fun rest => by simp [Nested]⟩
  split at hs
  · next hc =>
    subst hc
    split at hs
    · cases hs
    · next depth hk =>
      cases hs
      exact ⟨.of_closing, .of_closing, fun rest => by simp [Nested, hk]⟩
  · cases hs

/-- A step is refused only where the character does not fit, or closes what is not open. -/
theorem step_none (h : k.Tracks before (some c)) (hs : k.step before c after = none) (hf : Fits before c after)
    (rest : List Char) : ¬ Nested k.depth (c :: rest) := by
  unfold step at hs
  split at hs
  · cases hs
  next hd =>
  obtain ⟨hdigit, hends, hdue⟩ := h.flags (by simpa using hd)
  split at hs
  · next hp =>
    split at hs
    · cases hs
    · next hb =>
      obtain ⟨hbefore, hafter⟩ := hf.point hp
      rw [hdigit] at hbefore
      simp [hbefore, hafter] at hb
  next hp =>
  split at hs
  · next ho =>
    obtain ⟨o, rfl⟩ := isOperator_iff.1 ho
    split at hs
    · cases hs
    · next hb =>
      by_cases hsub : o = .sub
      · subst hsub
        rw [hdue] at hb
        cases hk : k.afterOperand with
        | true => simp [hk] at hb
        | false => simp [hk, Operator.toChar] at hb
      · have := hf.any_endsOperand hsub
        rw [hends] at this
        simp [this] at hb
  next ho =>
  split at hs
  · cases hs
  next hop =>
  split at hs
  · next hc =>
    subst hc
    split at hs
    · next hk => simp [Nested, hk]
    · cases hs
  · next hc =>
    rcases isExpressionChar_cases hf.alphabet with h | h | ⟨o, h⟩ | h | h
    · exact absurd h hd
    · exact absurd h hp
    · exact absurd (isOperator_iff.2 ⟨o, h⟩) ho
    · exact absurd h hop
    · exact absurd h hc

/-- What a scan accepts, wherever it starts. -/
theorem any_accepts_run_iff {text : List Char} (h : k.Tracks before text.head?) :
    (k.run before text).any accepts = true ↔
      Everywhere Fits before text ∧ Nested k.depth text ∧ (text.getLast?.or before).any endsOperand := by
  induction text generalizing k before with
  | nil =>
    have hends := (h.flags (by simp)).2.1
    simp [run, accepts, Everywhere, Nested, hends]
  | cons c rest ih =>
    rw [run, Everywhere, getLast?_cons_or]
    cases hs : k.step before c rest.head? with
    | none =>
      simp only [Option.any_none, Bool.false_eq_true, false_iff]
      intro ⟨⟨hf, _⟩, hn, _⟩
      exact step_none h hs hf rest hn
    | some next =>
      obtain ⟨hf, ht, hn⟩ := step_some h hs
      simp only [ih ht, hn, hf, true_and]

end Scan

theorem isWellFormed_iff {text : List Char} :
    isWellFormed text = true ↔ Everywhere Fits none text ∧ Nested 0 text ∧ text.getLast?.any endsOperand := by
  rw [isWellFormed, Scan.any_accepts_run_iff .start, Option.or_none]
  rfl

/-- The form check accepts exactly the texts that have the form of an expression. -/
theorem isWellFormed_iff_hasForm (text : List Char) : isWellFormed text = true ↔ HasForm text := by
  rw [isWellFormed_iff, hasForm_iff]

end Calculator
