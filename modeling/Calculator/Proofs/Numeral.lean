/-
  Calculator.Proofs.Numeral — the numerals of a text, and which of them can be read.

  A numeral is a longest run of digits and points, with the minus in front of it if that is a sign;
  a sign without a run is one too. That is said of the text alone (`NumeralAt`): what stands in front,
  the sign, the run, and what follows. The numerals among the lexemes of a text are just these, each
  at its place (`numeralAt_iff_cut`).

  Where points stand between digits, a numeral cannot be read just if its run is empty, has two points
  or comes to 2^1024 - 2^970 or more (`NumeralAt.readNumeral_eq_error_iff`).
-/

import Mathlib.Data.Rat.Cast.Order
import Mathlib.Tactic.Positivity
import Mathlib.Tactic.Ring
import Calculator.Proofs.Binary64
import Calculator.Proofs.Token

namespace Calculator

attribute [local instance] natPower

/-! ## The numerals of a text -/

/-- Neither a character of a numeral nor a sign ends the text. -/
structure EndsOutsideNumeral (text : List Char) : Prop where
  run : text.getLast?.any isNumeralChar = false
  sign : ∀ front, text = front ++ ['-'] → operandDue front.getLast? = false

/-- Behind `before` the text has a numeral: a longest run of digits and points, with the minus in
front of it if that is a sign, or a sign without a run. -/
structure NumeralAt (text before : List Char) (negated : Bool) (run : List Char) : Prop where
  split : ∃ after, text = before ++ ((Lexeme.numeral negated run).text ++ after) ∧ after.head?.any isNumeralChar = false
  isNumeralChar_of_mem : ∀ c ∈ run, isNumeralChar c
  signed : negated = true → operandDue before.getLast?
  unsigned : negated = false → run ≠ [] ∧ EndsOutsideNumeral before

/-- No numeral reaches across the place between the two parts. -/
def Apart (pre rest : List Char) : Prop := rest.head?.any isNumeralChar = true → EndsOutsideNumeral pre

theorem apart_dropWhile (pre rest : List Char) : Apart pre (rest.dropWhile isNumeralChar) := by
  intro h
  rw [head?_dropWhile] at h
  cases h

variable {pre rest before run : List Char} {c : Char} {negated : Bool}

theorem apart_next (pre : List Char) (c : Char) (rest : List Char) :
    Apart (pre ++ (Lexeme.next pre.getLast? c rest).1.text) (Lexeme.next pre.getLast? c rest).2 := by
  rcases Lexeme.next_cases pre.getLast? c rest with ⟨-, h⟩ | ⟨-, -, h⟩ | ⟨hc, hs, h⟩
  · rw [h]
    exact apart_dropWhile _ rest
  · rw [h]
    exact apart_dropWhile _ rest
  · rw [h, Lexeme.text_single]
    refine fun _ => ⟨?_, ?_⟩
    · simpa [List.getLast?_concat] using hc
    · intro front e
      obtain rfl := List.append_inj_left' e rfl
      cases List.append_inj_right' e rfl
      simpa using hs

theorem not_endsOutsideNumeral_append (hne : run ≠ []) (hrun : ∀ d ∈ run, isNumeralChar d) :
    ¬ EndsOutsideNumeral (pre ++ run) := by
  intro h
  have := h.run
  rw [List.getLast?_append, List.getLast?_eq_some_getLast hne, Option.some_or] at this
  simp [hrun _ (List.getLast_mem hne)] at this

/-- Inside the first lexeme stand only digits and points, each behind another one or behind the sign. -/
theorem not_endsOutsideNumeral_of_text_next {inner post : List Char} {d : Char}
    (h : (Lexeme.next pre.getLast? c rest).1.text = inner ++ d :: post) (hne : inner ≠ []) :
    isNumeralChar d ∧ ¬ EndsOutsideNumeral (pre ++ inner) := by
  rcases Lexeme.next_cases pre.getLast? c rest with ⟨hc, hn⟩ | ⟨rfl, hdue, hn⟩ | ⟨-, -, hn⟩
  · rw [hn] at h
    have hall : ∀ e ∈ inner ++ d :: post, isNumeralChar e :=
      h ▸ List.forall_mem_cons.2 ⟨hc, of_mem_takeWhile⟩
    obtain ⟨hinner, hpost⟩ := List.forall_mem_append.1 hall
    exact ⟨hpost d List.mem_cons_self, not_endsOutsideNumeral_append hne hinner⟩
  · rw [hn] at h
    obtain ⟨i, inner, rfl⟩ := List.exists_cons_of_ne_nil hne
    have htail : rest.takeWhile isNumeralChar = inner ++ d :: post := (List.cons.inj h).2
    have hall : ∀ e ∈ inner ++ d :: post, isNumeralChar e := htail ▸ of_mem_takeWhile
    obtain ⟨hinner, hpost⟩ := List.forall_mem_append.1 hall
    refine ⟨hpost d List.mem_cons_self, ?_⟩
    by_cases hnil : inner = []
    · subst hnil
      obtain rfl : '-' = i := (List.cons.inj h).1
      intro hout
      rw [hout.sign pre rfl] at hdue
      cases hdue
    · rw [List.append_cons]
      exact not_endsOutsideNumeral_append hnil hinner
  · rw [hn, Lexeme.text_single] at h
    obtain ⟨i, inner, rfl⟩ := List.exists_cons_of_ne_nil hne
    simp at h

namespace NumeralAt

theorem text_ne_nil (h : NumeralAt rest before negated run) : (Lexeme.numeral negated run).text ≠ [] := by
  cases negated with
  | true => exact List.cons_ne_nil _ _
  | false => exact (h.unsigned rfl).1

/-- A numeral at the front is the first lexeme. -/
theorem next_eq (h : NumeralAt (pre ++ c :: rest) pre negated run) :
    (Lexeme.next pre.getLast? c rest).1 = .numeral negated run := by
  obtain ⟨after, htext, hafter⟩ := h.split
  cases negated with
  | true =>
    have htext : c :: rest = '-' :: (run ++ after) := List.append_cancel_left htext
    obtain ⟨rfl, rfl⟩ := List.cons.inj htext
    rw [Lexeme.next_sign (h.signed rfl), takeWhile_run_append h.isNumeralChar_of_mem hafter]
  | false =>
    obtain ⟨d, run, rfl⟩ := List.exists_cons_of_ne_nil (h.unsigned rfl).1
    have htext : c :: rest = d :: (run ++ after) := List.append_cancel_left htext
    obtain ⟨rfl, rfl⟩ := List.cons.inj htext
    obtain ⟨hc, hrun⟩ := List.forall_mem_cons.1 h.isNumeralChar_of_mem
    rw [Lexeme.next_numeral hc, takeWhile_run_append hrun hafter]

/-- A first lexeme that is a numeral stands at the front. -/
theorem of_next_eq (ha : Apart pre (c :: rest)) (h : (Lexeme.next pre.getLast? c rest).1 = .numeral negated run) :
    NumeralAt (pre ++ c :: rest) pre negated run := by
  have htext := Lexeme.text_next pre.getLast? c rest
  rcases Lexeme.next_cases pre.getLast? c rest with ⟨hc, hn⟩ | ⟨rfl, hdue, hn⟩ | ⟨hc, hs, hn⟩
  · rw [hn] at h htext
    cases h
    exact ⟨⟨_, by rw [htext], head?_dropWhile _⟩, List.forall_mem_cons.2 ⟨hc, of_mem_takeWhile⟩,
      by simp, fun _ => ⟨List.cons_ne_nil _ _, ha (by simpa using hc)⟩⟩
  · rw [hn] at h htext
    cases h
    exact ⟨⟨_, by rw [htext], head?_dropWhile _⟩, of_mem_takeWhile, fun _ => hdue, by simp⟩
  · rw [hn] at h
    exact absurd h (Lexeme.single_ne_numeral c negated run)

/-- No numeral starts inside the first lexeme. -/
theorem next_prefix (h : NumeralAt (pre ++ c :: rest) before negated run) (hp : pre <+: before) (hne : before ≠ pre) :
    pre ++ (Lexeme.next pre.getLast? c rest).1.text <+: before := by
  obtain ⟨inner, rfl⟩ := hp
  have hinner : inner ≠ [] := fun e => hne (by rw [e, List.append_nil])
  obtain ⟨after, htext, -⟩ := h.split
  rw [List.append_assoc] at htext
  have htext := List.append_cancel_left htext
  rw [← Lexeme.text_next pre.getLast? c rest] at htext
  rcases List.append_eq_append_iff.1 htext with ⟨y, hy, -⟩ | ⟨y, hy, hrest⟩
  · exact (List.prefix_append_right_inj pre).2 ⟨y, hy.symm⟩
  · cases y with
    | nil => exact ⟨[], by rw [hy, List.append_nil, List.append_nil]⟩
    | cons d y =>
      obtain ⟨hd, hout⟩ := not_endsOutsideNumeral_of_text_next hy hinner
      cases negated with
      | true =>
        obtain ⟨rfl, -⟩ := List.cons.inj hrest
        cases hd
      | false => exact absurd (h.unsigned rfl).2 hout

end NumeralAt

/-- The numerals behind `pre` are those the rest is cut into, each at its place. -/
theorem numeralAt_append_iff (ha : Apart pre rest) :
    pre <+: before ∧ NumeralAt (pre ++ rest) before negated run ↔
      ∃ as bs, Lexeme.cutFrom pre.getLast? rest = as ++ .numeral negated run :: bs ∧ before = pre ++ as.flatMap Lexeme.text := by
  induction hlen : rest.length using Nat.strongRecOn generalizing pre rest with
  | _ n ih =>
  subst hlen
  cases rest with
  | nil =>
    rw [Lexeme.cutFrom]
    constructor
    · rintro ⟨⟨inner, hinner⟩, h⟩
      obtain ⟨after, htext, -⟩ := h.split
      rw [← hinner, List.append_assoc] at htext
      have := List.append_cancel_left htext
      simp [h.text_ne_nil] at this
    · intro h
      obtain ⟨as, bs, h, -⟩ := h
      simp at h
  | cons c rest =>
    have htext := Lexeme.text_next pre.getLast? c rest
    have hlast : (pre ++ (Lexeme.next pre.getLast? c rest).1.text).getLast? = (Lexeme.next pre.getLast? c rest).1.text.getLast? := by
      rw [List.getLast?_append, List.getLast?_eq_some_getLast Lexeme.text_next_ne_nil, Option.some_or]
    have ih := ih _ (Nat.lt_succ_of_le (Lexeme.length_next_le pre.getLast? c rest)) (apart_next pre c rest) rfl
    rw [hlast, List.append_assoc, htext] at ih
    rw [Lexeme.cutFrom]
    constructor
    · rintro ⟨hp, h⟩
      by_cases he : before = pre
      · subst he
        exact ⟨[], _, by rw [h.next_eq]; rfl, by simp⟩
      · obtain ⟨as, bs, has, hbefore⟩ := ih.1 ⟨h.next_prefix hp he, h⟩
        exact ⟨_ :: as, bs, by rw [has]; rfl, by rw [hbefore, List.flatMap_cons, List.append_assoc]⟩
    · intro h
      obtain ⟨as, bs, has, rfl⟩ := h
      cases as with
      | nil =>
        rw [List.flatMap_nil, List.append_nil]
        exact ⟨List.prefix_rfl, .of_next_eq ha (List.cons.inj has).1⟩
      | cons a as =>
        obtain ⟨rfl, htail⟩ := List.cons.inj has
        have h := ih.2 ⟨as, bs, htail, by rw [List.flatMap_cons, List.append_assoc]⟩
        exact ⟨List.prefix_append .., h.2⟩

/-- The numerals of a text are those it is cut into, each at its place. -/
theorem numeralAt_iff_cut {text : List Char} :
    NumeralAt text before negated run ↔
      ∃ as bs, Lexeme.cut text = as ++ .numeral negated run :: bs ∧ before = as.flatMap Lexeme.text := by
  have ha : Apart [] text := fun _ => ⟨rfl, fun front h => by simp at h⟩
  rw [Lexeme.cut_eq_cutFrom]
  exact (and_iff_right List.nil_prefix).symm.trans (numeralAt_append_iff ha)

theorem numeral_mem_cut_iff {text : List Char} :
    .numeral negated run ∈ Lexeme.cut text ↔ ∃ before, NumeralAt text before negated run := by
  constructor
  · intro h
    obtain ⟨as, bs, hcut⟩ := List.append_of_mem h
    exact ⟨_, numeralAt_iff_cut.2 ⟨as, bs, hcut, rfl⟩⟩
  · intro h
    obtain ⟨before, h⟩ := h
    obtain ⟨as, bs, hcut, -⟩ := numeralAt_iff_cut.1 h
    rw [hcut]
    exact List.mem_append_right _ List.mem_cons_self

/-! ## Reading a numeral -/

namespace Decimal

/-- The digits on both sides of a run's first point. -/
def ofRun (run : List Char) : Decimal := ⟨run.takeWhile (· != '.'), (run.dropWhile (· != '.')).drop 1⟩

theorem eq_ofRun {run : List Char} {d : Decimal} (h : ofRun? run = some d) : d = ofRun run := by
  unfold ofRun? at h
  dsimp only at h
  split at h
  · cases h
  · cases h
    rfl

def value (d : Decimal) : ℚ := Nat.ofDigitChars 10 d.whole 0 + Nat.ofDigitChars 10 d.fraction 0 / 10 ^ d.fraction.length

theorem scaled_eq_value (d : Decimal) : (d.scaled : ℚ) = d.value * 10 ^ d.fraction.length := by
  have h : d.scaled = 10 ^ d.fraction.length * Nat.ofDigitChars 10 d.whole 0 + Nat.ofDigitChars 10 d.fraction 0 := by
    rw [scaled, Nat.ofDigitChars_append, Nat.ofDigitChars_eq_ofDigitChars_zero]
  rw [h, value, add_mul, div_mul_cancel₀ _ (by positivity)]
  push_cast
  ring

/-- A decimal has a finite double just if its value lies below 2^1024 - 2^970. -/
theorem isFinite_toBinary64_iff_value (d : Decimal) : d.toBinary64.isFinite = true ↔ d.value < 2 ^ 1024 - 2 ^ 970 := by
  have hbound : ((2 ^ 54 - 1 : Nat) : ℚ) * 2 ^ 970 = 2 ^ 1024 - 2 ^ 970 := by
    rw [Nat.cast_pred (Nat.two_pow_pos 54), Nat.cast_pow, Nat.cast_ofNat, sub_mul, ← pow_add, one_mul]
  have hten : (0 : ℚ) < 10 ^ d.fraction.length := by positivity
  rw [isFinite_toBinary64_iff, ← Nat.cast_lt (α := ℚ), scaled_eq_value, ← hbound]
  simp only [Nat.cast_mul, Nat.cast_pow, Nat.cast_ofNat]
  exact mul_lt_mul_iff_left₀ hten

end Decimal

/-- A run that spells no finite double: an empty one, one with two points, or one that comes to
2^1024 - 2^970 or more. -/
def Unreadable (run : List Char) : Prop :=
  run = [] ∨ 2 ≤ run.count '.' ∨ 2 ^ 1024 - 2 ^ 970 ≤ (Decimal.ofRun run).value

theorem Binary64.ofRun?_eq_none_iff {run : List Char} (h : run ≠ ['.']) : ofRun? run = none ↔ Unreadable run := by
  rw [ofRun?, Unreadable]
  cases hd : Decimal.ofRun? run with
  | none =>
    rcases Decimal.ofRun?_eq_none_iff.1 hd with hnil | hpoint | hcount
    · exact ⟨fun _ => .inl hnil, fun _ => rfl⟩
    · exact absurd hpoint h
    · exact ⟨fun _ => .inr (.inl hcount), fun _ => rfl⟩
  | some d =>
    obtain ⟨hnil, -, hcount⟩ := Decimal.of_ofRun?_eq_some hd
    have hfinite := d.isFinite_toBinary64_iff_value
    rw [← Decimal.eq_ofRun hd, ← not_lt (a := d.value), ← hfinite]
    simp [Option.filter, hnil, Nat.not_le.2 (Nat.lt_succ_of_le hcount)]

theorem Token.readNumeral_eq_error_iff {e : EvalError} :
    readNumeral negated run = .error e ↔
      Binary64.ofRun? run = none ∧ e = .unreadable (String.ofList (Lexeme.numeral negated run).text) := by
  unfold readNumeral
  cases Binary64.ofRun? run with
  | none => simp [eq_comm]
  | some x => simp

/-- Where points stand between digits, a numeral has a digit or is a sign by itself. -/
theorem NumeralAt.ne_point {text : List Char} (hf : Everywhere Fits none text) (h : NumeralAt text before negated run) :
    run ≠ ['.'] := by
  rintro rfl
  obtain ⟨after, htext, -⟩ := h.split
  cases negated with
  | true =>
    have hpoint := (everywhere_iff.1 hf (before ++ ['-']) '.' after (by rw [htext]; simp [Lexeme.text])).point rfl
    simp at hpoint
  | false =>
    obtain ⟨hdigit, -⟩ := (everywhere_iff.1 hf before '.' after htext).point rfl
    have hout := (h.unsigned rfl).2.run
    rw [Option.or_none] at hdigit
    cases hlast : before.getLast? with
    | none => rw [hlast] at hdigit; cases hdigit
    | some c =>
      rw [hlast] at hdigit hout
      have hc : c.isDigit := hdigit
      simp [isNumeralChar_of_isDigit hc] at hout

theorem NumeralAt.readNumeral_eq_error_iff {text : List Char} (hf : Everywhere Fits none text) (h : NumeralAt text before negated run)
    {e : EvalError} :
    Token.readNumeral negated run = .error e ↔
      Unreadable run ∧ e = .unreadable (String.ofList (Lexeme.numeral negated run).text) := by
  rw [Token.readNumeral_eq_error_iff, Binary64.ofRun?_eq_none_iff (h.ne_point hf)]

end Calculator
