/-
  Calculator.Proofs.Range — results and the range of finite doubles.

  A result is a decimal number with two decimals just if its value is finite
  (`isTwoDecimals_twoDecimals_iff`). Numerals out of range are refused when they are read, so that the
  machine starts from finite operands. It never checks what it applies its operators to: the operands
  stay finite until an application of an operator to finite operands leaves the range
  (`Machine.isFinite_of_run`). What comes of that is reported and stored like any other result
  (`doubled_out_of_range`).

  Main statement: `resultLaw`, over every run of calculations.
-/

import Calculator.Proofs.Meaning
import Calculator.Service

namespace Calculator

/-! ## Two decimals -/

/-- Digits, a point and two digits, with or without a minus in front. -/
def IsTwoDecimals (text : String) : Prop :=
  ∃ (negative : Bool) (whole : List Char) (tenths hundredths : Char),
    text.toList = (if negative then ['-'] else []) ++ whole ++ ['.', tenths, hundredths] ∧
      whole ≠ [] ∧ (∀ c ∈ whole, c.isDigit) ∧ tenths.isDigit ∧ hundredths.isDigit

namespace Binary64

theorem exists_repr_digit {n : Nat} (h : n < 10) : ∃ c : Char, c.isDigit ∧ n.repr.toList = [c] := by
  have hdigit : ∀ d < 10, (Nat.digitChar d).isDigit = true := by decide
  exact ⟨n.digitChar, hdigit n h, by rw [Nat.toList_repr, Nat.toDigits_of_lt_base h]⟩

theorem isTwoDecimals_hundredthsText (negative : Bool) (n : Nat) :
    IsTwoDecimals (twoDecimals.minus negative ++ hundredthsText n) := by
  obtain ⟨tenths, ht, htenths⟩ := exists_repr_digit (Nat.mod_lt (n / 10) (by decide : 10 > 0))
  obtain ⟨hundredths, hh, hhundredths⟩ := exists_repr_digit (Nat.mod_lt n (by decide : 10 > 0))
  refine ⟨negative, Nat.toDigits 10 (n / 100), tenths, hundredths, ?_, Nat.toDigits_ne_nil, ?_, ht, hh⟩
  · simp only [hundredthsText, String.toList_append, htenths, hhundredths]
    rw [Nat.toList_repr]
    cases negative with
    | true => simp [twoDecimals.minus]
    | false => simp [twoDecimals.minus]
  · intro c hc
    exact Nat.isDigit_of_mem_toDigits (by decide) (by decide) hc

theorem not_isTwoDecimals {text : String} (h : '.' ∉ text.toList) : ¬ IsTwoDecimals text := by
  rintro ⟨negative, whole, tenths, hundredths, htext, -⟩
  rw [htext] at h
  simp at h

/-- A double is written with two decimals just if it is finite. -/
theorem isTwoDecimals_twoDecimals_iff {x : Binary64} : IsTwoDecimals x.twoDecimals ↔ x.isFinite = true := by
  cases x with
  | nan => exact ⟨fun h => absurd h (not_isTwoDecimals (by decide)), nofun⟩
  | infinity negative =>
    refine ⟨fun h => absurd h (not_isTwoDecimals ?_), nofun⟩
    cases negative with
    | true => decide
    | false => decide
  | finite negative units h => exact ⟨fun _ => rfl, fun _ => isTwoDecimals_hundredthsText negative _⟩

/-- What is read from a numeral is finite. -/
theorem isFinite_readNumeral {negated : Bool} {run : List Char} {x : Binary64} (h : Token.readNumeral negated run = .ok x) :
    x.isFinite = true := by
  unfold Token.readNumeral at h
  split at h
  · next y hy =>
    have hfinite : y.isFinite = true := (Option.filter_eq_some_iff.1 hy).2
    cases h
    split
    · cases y with
      | finite => rfl
      | nan => cases hfinite
      | infinity => cases hfinite
    · exact hfinite
  · cases h

end Binary64

/-! ## Applications of operators -/

structure Application where
  operator : Operator
  left : Binary64
  right : Binary64

namespace Application

def value (a : Application) : Except EvalError Binary64 := a.operator.apply a.left a.right

/-- From finite operands it comes to an infinity or NaN. -/
structure LeavesRange (a : Application) : Prop where
  left : a.left.isFinite = true
  right : a.right.isFinite = true
  value : ∃ x, a.value = .ok x ∧ x.isFinite = false

end Application

namespace Machine

inductive Unwinds (due : Operator → Bool) : List Binary64 → List Pending → Application → Prop where
  | here {o : Operator} {x y : Binary64} {operands : List Binary64} {pending : List Pending} :
      due o → Unwinds due (y :: x :: operands) (.operator o :: pending) ⟨o, x, y⟩
  | later {o : Operator} {x y value : Binary64} {operands : List Binary64} {pending : List Pending} {a : Application} :
      due o → o.apply x y = .ok value → Unwinds due (value :: operands) pending a →
        Unwinds due (y :: x :: operands) (.operator o :: pending) a

/-- Reading the tokens to their end makes the application. -/
inductive Applies : Machine → List Token → Application → Prop where
  | operator {k : Machine} {o : Operator} {ts : List Token} {a : Application} :
      Unwinds (fun top => o.rank ≤ top.rank) k.operands k.pending a → Applies k (.operator o :: ts) a
  | closing {k : Machine} {ts : List Token} {a : Application} :
      Unwinds (fun _ => true) k.operands k.pending a → Applies k (.closing :: ts) a
  | finish {k : Machine} {a : Application} : Unwinds (fun _ => true) k.operands k.pending a → Applies k [] a
  | later {k m : Machine} {t : Token} {ts : List Token} {a : Application} :
      k.step t = .ok m → Applies m ts a → Applies k (t :: ts) a

def Finite (operands : List Binary64) : Prop := ∀ x ∈ operands, x.isFinite = true

theorem finite_unwind {due : Operator → Bool} {operands : List Binary64} {pending : List Pending} {k : Machine}
    (h : unwind due operands pending = .ok k) (hfinite : Finite operands)
    (hrange : ∀ a, Unwinds due operands pending a → ¬ a.LeavesRange) : Finite k.operands := by
  induction pending generalizing operands with
  | nil =>
    cases h
    exact hfinite
  | cons top pending ih =>
    cases top with
    | opening =>
      cases h
      exact hfinite
    | operator o =>
      unfold unwind at h
      split at h
      · next hdue =>
        split at h
        · next y x operands =>
          obtain ⟨hy, hrest⟩ := List.forall_mem_cons.1 hfinite
          obtain ⟨hx, hrest⟩ := List.forall_mem_cons.1 hrest
          split at h
          · next value hvalue =>
            have hin : value.isFinite = true := by
              cases hv : value.isFinite with
              | true => rfl
              | false => exact absurd ⟨hx, hy, value, hvalue, hv⟩ (hrange ⟨o, x, y⟩ (.here hdue))
            exact ih h (List.forall_mem_cons.2 ⟨hin, hrest⟩) fun a ha => hrange a (.later hdue hvalue ha)
          · cases h
        · cases h
      · cases h
        exact hfinite

theorem finite_step {k m : Machine} {t : Token} {ts : List Token} (h : k.step t = .ok m) (hfinite : Finite k.operands)
    (ht : ∀ x, t = .number x → x.isFinite = true) (hrange : ∀ a, Applies k (t :: ts) a → ¬ a.LeavesRange) :
    Finite m.operands := by
  cases t with
  | number x =>
    cases h
    exact List.forall_mem_cons.2 ⟨ht x rfl, hfinite⟩
  | opening =>
    cases h
    exact hfinite
  | operator o =>
    obtain ⟨m, hm, hk⟩ := bind_eq_ok.1 h
    have hm := finite_unwind hm hfinite fun a ha => hrange a (.operator ha)
    cases hk
    exact hm
  | closing =>
    obtain ⟨m, hm, hk⟩ := bind_eq_ok.1 h
    have hm := finite_unwind hm hfinite fun a ha => hrange a (.closing ha)
    split at hk
    · cases hk
      exact hm
    · cases hk

/-- Finite numbers come to a finite value unless an application leaves the range. -/
theorem isFinite_of_run {k m : Machine} {ts : List Token} {x : Binary64} (hrun : k.run ts = .ok m) (hx : m.finish = .ok x)
    (hfinite : Finite k.operands) (hts : ∀ y, .number y ∈ ts → y.isFinite = true)
    (hrange : ∀ a, Applies k ts a → ¬ a.LeavesRange) : x.isFinite = true := by
  induction ts generalizing k with
  | nil =>
    cases hrun
    obtain ⟨m, hm, hx⟩ := bind_eq_ok.1 hx
    have hm := finite_unwind hm hfinite fun a ha => hrange a (.finish ha)
    split at hx
    · cases hx
      exact hm x List.mem_cons_self
    · cases hx
  | cons t ts ih =>
    rw [run_cons] at hrun
    obtain ⟨k', hk', hrun⟩ := bind_eq_ok.1 hrun
    have hnumber : ∀ y, t = .number y → y.isFinite = true := fun y hy => hts y (hy ▸ List.mem_cons_self)
    exact ih hrun (finite_step hk' hfinite hnumber hrange) (fun y hy => hts y (List.mem_cons_of_mem _ hy))
      fun a ha => hrange a (.later hk' ha)

end Machine

/-! ## Expressions -/

/-- The numbers among tokens that were read are finite. -/
theorem Token.isFinite_of_ofLexemes {as : List Lexeme} {ts : List Token} (h : ofLexemes as = .ok ts) :
    ∀ x, number x ∈ ts → x.isFinite = true := by
  induction as generalizing ts with
  | nil =>
    cases h
    exact fun x hx => absurd hx List.not_mem_nil
  | cons a as ih =>
    obtain ⟨t, us, ht, hs, rfl⟩ := ofLexemes_cons.1 h
    intro x hx
    rcases List.mem_append.1 hx with hx | hx
    · cases a with
      | numeral negated run =>
        obtain ⟨y, hy, rfl⟩ := ofLexeme_numeral.1 ht
        cases List.mem_singleton.1 hx
        exact Binary64.isFinite_readNumeral hy
      | unknown => cases ht
      | blank | operator | opening | closing =>
        cases ht
        simp at hx
    · exact ih hs x hx

/-- Some operator of the expression is applied to finite operands and comes to an infinity or NaN. -/
def LeavesRange (text : List Char) : Prop :=
  ∃ ts a, tokenize text = .ok ts ∧ Machine.Applies .empty ts a ∧ a.LeavesRange

/-- The value of an expression is finite unless it leaves the range on the way. -/
theorem isFinite_of_calculate {text : List Char} {x : Binary64} (h : calculate text = .ok x) (hrange : ¬ LeavesRange text) :
    x.isFinite = true := by
  unfold calculate at h
  split at h
  · obtain ⟨ts, hts, hx⟩ := bind_eq_ok.1 h
    obtain ⟨m, hrun, hx⟩ := bind_eq_ok.1 hx
    have hempty : Machine.Finite Machine.empty.operands := fun x hx => absurd hx List.not_mem_nil
    exact Machine.isFinite_of_run hrun hx hempty (Token.isFinite_of_ofLexemes hts) fun a ha hout => hrange ⟨ts, a, hts, ha, hout⟩
  · cases h

/-! ## The service -/

theorem exists_of_resultText {expression text : String} (h : resultText expression = .ok text) :
    ∃ x, calculate expression.toList = .ok x ∧ x.twoDecimals = text := by
  unfold resultText at h
  cases hc : calculate expression.toList with
  | error e =>
    rw [hc] at h
    cases h
  | ok x =>
    rw [hc] at h
    cases h
    exact ⟨x, rfl, rfl⟩

namespace Service

def after (s : Service) (expressions : List String) : Service :=
  expressions.foldl (fun s expression => (s.calculate expression).2) s

/-- A calculation stores its result, or nothing. -/
theorem last_calculate (s : Service) (expression : String) :
    (s.calculate expression).2.last = (resultText expression).toOption.or s.last := by
  unfold calculate
  cases resultText expression with
  | error e => rfl
  | ok t => rfl

/-- After a run the result of its latest success is stored, and without any what was stored before. -/
theorem last_after (s : Service) (expressions : List String) :
    (s.after expressions).last = (expressions.reverse.findSome? fun e => (resultText e).toOption).or s.last := by
  induction expressions generalizing s with
  | nil => rfl
  | cons expression expressions ih =>
    rw [List.reverse_cons, List.findSome?_append, Option.or_assoc]
    show ((s.calculate expression).2.after expressions).last = _
    rw [ih, last_calculate, List.findSome?_singleton]

end Service

/-- What results look like, and what is stored of them in a run from a fresh service. -/
structure ResultLaw (expressions : List String) : Prop where
  /-- A result is a decimal number just if its value is finite, which it is unless its expression leaves the range. -/
  result : ∀ expression text, ((Service.fresh.after expressions).calculate expression).1 = .ok text →
    ∃ x, calculate expression.toList = .ok x ∧ x.twoDecimals = text ∧ (IsTwoDecimals text ↔ x.isFinite = true) ∧
      (x.isFinite = false → LeavesRange expression.toList)
  /-- The result of the latest success is stored. -/
  stored : (Service.fresh.after expressions).last = expressions.reverse.findSome? fun e => (resultText e).toOption
  inRange : (∀ expression ∈ expressions, ¬ LeavesRange expression.toList) →
    ∀ text, (Service.fresh.after expressions).last = some text → IsTwoDecimals text

theorem resultLaw (expressions : List String) : ResultLaw expressions := by
  have finite {expression : String} {x : Binary64} (h : calculate expression.toList = .ok x) (hx : x.isFinite = false) :
      LeavesRange expression.toList := by
    refine Classical.byContradiction fun hrange => ?_
    rw [isFinite_of_calculate h hrange] at hx
    cases hx
  have stored : (Service.fresh.after expressions).last = expressions.reverse.findSome? fun e => (resultText e).toOption := by
    rw [Service.last_after]
    exact Option.or_none
  refine ⟨?_, stored, ?_⟩
  · intro expression text h
    rw [Service.fst_calculate] at h
    obtain ⟨x, hx, rfl⟩ := exists_of_resultText h
    exact ⟨x, hx, rfl, Binary64.isTwoDecimals_twoDecimals_iff, finite hx⟩
  · intro hrange text hlast
    rw [stored] at hlast
    obtain ⟨expression, hmem, hresult⟩ := List.exists_of_findSome?_eq_some hlast
    obtain ⟨x, hx, rfl⟩ := exists_of_resultText (eq_ok_of_toOption hresult)
    exact Binary64.isTwoDecimals_twoDecimals_iff.2 (isFinite_of_calculate hx (hrange expression (List.mem_reverse.1 hmem)))

/-- Twice 10^308 is no decimal number, and still it is reported and stored. -/
theorem doubled_out_of_range :
    Service.fresh.calculate (String.ofList ('1' :: List.replicate 308 '0' ++ ['*', '2'])) = (.ok "inf", ⟨some "inf"⟩) ∧
      ¬ IsTwoDecimals "inf" := by
  have hvalue : calculate ('1' :: List.replicate 308 '0' ++ ['*', '2']) = .ok (.infinity false) :=
    eq_ok_of_toOption (by decide +kernel)
  refine ⟨?_, Binary64.not_isTwoDecimals (by decide)⟩
  rw [Service.calculate, resultText, String.toList_ofList, hvalue]
  rfl

end Calculator
