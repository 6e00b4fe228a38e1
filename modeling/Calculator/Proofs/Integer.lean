/-
  Calculator.Proofs.Integer — integers are calculated exactly.

  Every integer up to 2^53 in magnitude is a double. So an operation whose exact result is such an integer
  has nothing to round, and its result is that integer, though zero may have either sign
  (`IsInteger.exists_apply`). By induction a phrase all of whose parts have such integers as their values has
  its own as a double (`Phrase.exists_value`). It is written with all its digits and two zeros behind the
  point (`IsInteger.twoDecimals`).

  Main statement: `integerLaw`. A divisor that is zero as an integer is refused, whatever sign its zero has.
-/

import Calculator.Proofs.Meaning
import Calculator.Proofs.Rounding
import Calculator.Service

namespace Calculator

attribute [local instance] natPower

-- the large powers are not to be computed
attribute [local irreducible] Binary64.unitsPerOne Binary64.unitsLimit

/-- From zero up to here each natural number is a double. -/
def safeLimit : Nat := 2 ^ (53 : Nat)

/-! ## Integers among the doubles -/

namespace Binary64

/-- The double is this integer. Zero may have either sign. -/
inductive IsInteger : Binary64 → Int → Prop
  | intro {s : Bool} {u : Nat} {h : Representable u} {n : Int} (eq : signed s u = n * (unitsPerOne : Int)) :
    IsInteger (.finite s u h) n

theorem natAbs_signed (s : Bool) (u : Nat) : (signed s u).natAbs = u := by
  cases s with
  | false => exact Int.natAbs_natCast u
  | true => exact (Int.natAbs_neg _).trans (Int.natAbs_natCast u)

theorem signed_not (s : Bool) (u : Nat) : signed (!s) u = -signed s u := by
  cases s with
  | false => rfl
  | true => exact (Int.neg_neg _).symm

theorem signed_mul (s t : Bool) (u v : Nat) : signed (s ^^ t) (u * v) = signed s u * signed t v := by
  have positive (t : Bool) : signed t (u * v) = (u : Int) * signed t v := by
    cases t with
    | false => exact Int.natCast_mul u v
    | true => exact (congrArg Neg.neg (Int.natCast_mul u v)).trans (Int.mul_neg ..).symm
  cases s with
  | false =>
    rw [Bool.false_xor]
    exact positive t
  | true =>
    rw [Bool.true_xor, signed_not, positive]
    exact (Int.neg_mul ..).symm

/-- An integer is its magnitude under its sign; zero has any sign. -/
theorem signed_natAbs {s : Bool} {n : Int} (h : n ≠ 0 → s = decide (n < 0)) : signed s n.natAbs = n := by
  unfold signed
  by_cases hn : n = 0
  · subst hn
    cases s <;> rfl
  · rw [h hn]
    by_cases hneg : n < 0
    · rw [if_pos (decide_eq_true hneg)]
      omega
    · rw [if_neg (by simp [hneg])]
      omega

/-- A significand of 53 bits, or the next number, gives a magnitude with each exponent in the range. -/
theorem representable_mul_two_pow {m e : Nat} (hm : m ≤ 2 ^ (53 : Nat)) (he : 53 + e < 2098) : Representable (m * 2 ^ e) := by
  have hpow {a b : Nat} (h : a < b) : 2 ^ a < 2 ^ b := Nat.pow_lt_pow_right (by decide) h
  refine ⟨?_, ?_⟩
  · have hle : m * 2 ^ e ≤ 2 ^ (53 : Nat) * 2 ^ e := Nat.mul_le_mul_right _ hm
    rw [← two_pow_eq (c := 53 + e) rfl] at hle
    rw [unitsLimit]
    exact Nat.lt_of_le_of_lt hle (hpow he)
  · rcases Nat.lt_or_eq_of_le hm with hlt | rfl
    · exact ⟨m, e, hlt, rfl⟩
    · -- a power of two, so one is a significand for it
      exact ⟨1, 53 + e, by decide, by rw [two_pow_eq (c := 53 + e) rfl, Nat.one_mul]⟩

theorem representable_mul_unitsPerOne {m : Nat} (h : m ≤ safeLimit) : Representable (m * unitsPerOne) := by
  rw [unitsPerOne]
  exact representable_mul_two_pow h (by decide)

theorem isInteger_iff {x : Binary64} {n : Int} :
    x.IsInteger n ↔ ∃ s h, x = .finite s (n.natAbs * unitsPerOne) h ∧ signed s n.natAbs = n := by
  have hpos : (unitsPerOne : Int) ≠ 0 := Int.natCast_ne_zero.2 (Nat.ne_of_gt unitsPerOne_pos)
  have hscale (s : Bool) (m : Nat) : signed s (m * unitsPerOne) = signed s m * (unitsPerOne : Int) := by
    have hmul := signed_mul s false m unitsPerOne
    rwa [Bool.xor_false] at hmul
  constructor
  · intro h
    cases h with
    | @intro s u hu _ eq =>
      have hunits : u = n.natAbs * unitsPerOne := by
        rw [← natAbs_signed s u, eq, Int.natAbs_mul, Int.natAbs_natCast]
      subst hunits
      rw [hscale] at eq
      exact ⟨s, hu, rfl, Int.eq_of_mul_eq_mul_right hpos eq⟩
  · rintro ⟨s, h, rfl, hs⟩
    exact .intro (by rw [hscale, hs])

theorem hundredths_mul_unitsPerOne (m : Nat) : hundredths (m * unitsPerOne) = m * 100 := by
  rw [hundredths, Nat.mul_right_comm]
  exact roundHalfEven_mul _ unitsPerOne_pos

theorem hundredthsText_mul (m : Nat) : hundredthsText (m * 100) = m.repr ++ ".00" := by
  have htenths : m * 100 / 10 % 10 = 0 := by omega
  have hlast : m * 100 % 10 = 0 := by omega
  rw [hundredthsText, Nat.mul_div_cancel m (by decide), htenths, hlast, String.append_assoc, String.append_assoc]
  rfl

/-- A quotient that is an integer in the range is rounded to it. -/
theorem isInteger_ofRatio {s : Bool} {n : Int} {den : Nat} (hd : 0 < den) (hn : n.natAbs ≤ safeLimit) (hs : signed s n.natAbs = n) :
    (ofRatio s (n.natAbs * unitsPerOne * den) den).IsInteger n :=
  isInteger_iff.2 ⟨s, representable_mul_unitsPerOne hn, ofRatio_mul hd _, hs⟩

namespace IsInteger

variable {x y : Binary64} {m n : Int}

theorem isFinite (h : x.IsInteger n) : x.isFinite = true := by
  obtain ⟨s, hu, rfl, -⟩ := isInteger_iff.1 h
  rfl

theorem isZero_iff (h : x.IsInteger n) : x.isZero = true ↔ n = 0 := by
  obtain ⟨s, hu, rfl, -⟩ := isInteger_iff.1 h
  have hpos := unitsPerOne_pos
  simp only [isZero, beq_iff_eq, Nat.mul_eq_zero, Int.natAbs_eq_zero, Nat.ne_of_gt hpos, or_false]

theorem neg (h : x.IsInteger n) : (-x).IsInteger (-n) := by
  obtain ⟨s, hu, rfl, hs⟩ := isInteger_iff.1 h
  refine isInteger_iff.2 ⟨!s, by rwa [Int.natAbs_neg], ?_, ?_⟩
  · simp only [Int.natAbs_neg]
    rfl
  · rw [Int.natAbs_neg, signed_not, hs]

theorem add (hx : x.IsInteger m) (hy : y.IsInteger n) (h : (m + n).natAbs ≤ safeLimit) : (x + y).IsInteger (m + n) := by
  cases hx with
  | @intro s u _ _ hs =>
    cases hy with
    | @intro t v _ _ ht =>
      have hsum : signed s u + signed t v = (m + n) * (unitsPerOne : Int) := by rw [hs, ht, Int.add_mul]
      have hpos : 0 < (unitsPerOne : Int) := Int.natCast_pos.2 unitsPerOne_pos
      have hneg : (m + n) * (unitsPerOne : Int) < 0 * (unitsPerOne : Int) ↔ m + n < 0 := Int.mul_lt_mul_right hpos
      rw [Int.zero_mul] at hneg
      show (ofRatio (if signed s u + signed t v = 0 then s && t else decide (signed s u + signed t v < 0))
        (signed s u + signed t v).natAbs 1).IsInteger (m + n)
      rw [hsum, Int.natAbs_mul, Int.natAbs_natCast, ← Nat.mul_one ((m + n).natAbs * unitsPerOne)]
      refine isInteger_ofRatio Nat.one_pos h (signed_natAbs fun hne => ?_)
      rw [if_neg (Int.mul_ne_zero hne (Int.ne_of_gt hpos))]
      exact decide_eq_decide.2 hneg

theorem sub (hx : x.IsInteger m) (hy : y.IsInteger n) (h : (m - n).natAbs ≤ safeLimit) : (x - y).IsInteger (m - n) := by
  rw [Int.sub_eq_add_neg] at h ⊢
  exact hx.add hy.neg h

theorem mul (hx : x.IsInteger m) (hy : y.IsInteger n) (h : (m * n).natAbs ≤ safeLimit) : (x * y).IsInteger (m * n) := by
  obtain ⟨s, hu, rfl, hs⟩ := isInteger_iff.1 hx
  obtain ⟨t, hv, rfl, ht⟩ := isInteger_iff.1 hy
  show (ofRatio (s ^^ t) (m.natAbs * unitsPerOne * (n.natAbs * unitsPerOne)) unitsPerOne).IsInteger (m * n)
  have hunits : m.natAbs * unitsPerOne * (n.natAbs * unitsPerOne) = (m * n).natAbs * unitsPerOne * unitsPerOne := by
    rw [Int.natAbs_mul]
    ac_rfl
  rw [hunits]
  refine isInteger_ofRatio unitsPerOne_pos h ?_
  rw [Int.natAbs_mul, signed_mul, hs, ht]

/-- A division that goes even. -/
theorem div {q : Int} (hx : x.IsInteger (q * n)) (hy : y.IsInteger n) (hn : n ≠ 0) (h : q.natAbs ≤ safeLimit) :
    (x / y).IsInteger q := by
  obtain ⟨s, hu, rfl, hs⟩ := isInteger_iff.1 hx
  obtain ⟨t, hv, rfl, ht⟩ := isInteger_iff.1 hy
  have hdivisor : 0 < n.natAbs * unitsPerOne := Nat.mul_pos (Int.natAbs_pos.2 hn) unitsPerOne_pos
  show (if n.natAbs * unitsPerOne = 0 then _ else
    ofRatio (s ^^ t) ((q * n).natAbs * unitsPerOne * unitsPerOne) (n.natAbs * unitsPerOne)).IsInteger q
  have hunits : (q * n).natAbs * unitsPerOne * unitsPerOne = q.natAbs * unitsPerOne * (n.natAbs * unitsPerOne) := by
    rw [Int.natAbs_mul]
    ac_rfl
  rw [if_neg (Nat.ne_of_gt hdivisor), hunits]
  refine isInteger_ofRatio hdivisor h (Int.eq_of_mul_eq_mul_right hn ?_)
  -- the divisor's sign, taken twice, is none
  calc signed (s ^^ t) q.natAbs * n
      = signed (s ^^ t) q.natAbs * signed t n.natAbs := by rw [ht]
    _ = signed (s ^^ t ^^ t) (q.natAbs * n.natAbs) := (signed_mul ..).symm
    _ = signed s (q * n).natAbs := by rw [Bool.xor_assoc, Bool.xor_self, Bool.xor_false, Int.natAbs_mul]
    _ = q * n := hs

/-- It is written with all its digits. -/
theorem twoDecimals (h : x.IsInteger n) : x.twoDecimals = n.repr ++ ".00" ∨ n = 0 ∧ x.twoDecimals = "-0.00" := by
  obtain ⟨s, hu, rfl, hs⟩ := isInteger_iff.1 h
  have htext : (finite s (n.natAbs * unitsPerOne) hu).twoDecimals = Binary64.twoDecimals.minus s ++ (n.natAbs.repr ++ ".00") := by
    rw [Binary64.twoDecimals, hundredths_mul_unitsPerOne, hundredthsText_mul]
  rw [htext]
  cases n with
  | ofNat m =>
    cases s with
    | false => exact .inl (String.empty_append ..)
    | true =>
      obtain rfl : m = 0 := by
        have hsame : -(m : Int) = m := hs
        omega
      exact .inr ⟨rfl, rfl⟩
  | negSucc m =>
    cases s with
    | false => cases hs
    | true => exact .inl (String.append_assoc ..).symm

end IsInteger

end Binary64

/-! ## Integers of phrases -/

def safe? (n : Int) : Option Int := if n.natAbs ≤ safeLimit then some n else none

theorem safe?_eq_some_iff {m n : Int} : safe? m = some n ↔ m = n ∧ n.natAbs ≤ safeLimit := by
  unfold safe?
  split
  · next h =>
    rw [Option.some_inj]
    exact ⟨fun e => ⟨e, e ▸ h⟩, And.left⟩
  · next h => exact ⟨nofun, fun ⟨e, hn⟩ => absurd (e ▸ hn) h⟩

def Literal.natural? (l : Literal) : Option Nat :=
  match l.fraction with
  | none => some (Nat.ofDigitChars 10 l.whole 0)
  | some _ => none

/-- It is the literal's double, if it is in the range. -/
theorem Literal.isInteger_of_natural? {l : Literal} {n : Nat} (h : l.natural? = some n) (hn : n ≤ safeLimit) :
    l.toBinary64.IsInteger n := by
  unfold natural? at h
  split at h
  · next hfraction =>
    cases h
    have hscaled : Decimal.scaled ⟨l.whole, []⟩ = Nat.ofDigitChars 10 l.whole 0 := by
      rw [Decimal.scaled, List.append_nil]
    rw [toBinary64, hfraction, Option.getD_none, Decimal.toBinary64, hscaled, List.length_nil, Nat.pow_zero,
      ← Nat.mul_one (_ * Binary64.unitsPerOne)]
    exact Binary64.isInteger_ofRatio (n := (Nat.ofDigitChars 10 l.whole 0 : Nat)) Nat.one_pos hn rfl
  · cases h

/-- What an operator gives for two integers, if that is in the range. A division has to go even. -/
def Operator.integer? (m n : Int) : Operator → Option Int
  | add => safe? (m + n)
  | sub => safe? (m - n)
  | mul => safe? (m * n)
  | div => if n ≠ 0 ∧ n ∣ m then safe? (m / n) else none

/-- That is what the machine computes. -/
theorem Binary64.IsInteger.exists_apply {x y : Binary64} {m n k : Int} {o : Operator} (hx : x.IsInteger m) (hy : y.IsInteger n)
    (ho : o.integer? m n = some k) : ∃ z, o.apply x y = .ok z ∧ z.IsInteger k := by
  cases o with
  | add =>
    obtain ⟨rfl, hk⟩ := safe?_eq_some_iff.1 ho
    exact ⟨x + y, rfl, hx.add hy hk⟩
  | sub =>
    obtain ⟨rfl, hk⟩ := safe?_eq_some_iff.1 ho
    exact ⟨x - y, rfl, hx.sub hy hk⟩
  | mul =>
    obtain ⟨rfl, hk⟩ := safe?_eq_some_iff.1 ho
    exact ⟨x * y, rfl, hx.mul hy hk⟩
  | div =>
    dsimp only [Operator.integer?] at ho
    split at ho
    · next hdiv =>
      obtain ⟨hn, q, rfl⟩ := hdiv
      rw [Int.mul_ediv_cancel_left q hn] at ho
      obtain ⟨rfl, hq⟩ := safe?_eq_some_iff.1 ho
      rw [Int.mul_comm] at hx
      exact ⟨x / y, Operator.apply_div_of_not_isZero fun hz => hn (hy.isZero_iff.1 hz), hx.div hy hn hq⟩
    · cases ho

namespace Phrase

def integer? {level : Level} : Phrase level → Option Int
  | literal l => l.natural?.bind fun n => safe? n
  | negated l => l.natural?.bind fun n => safe? (-n)
  | group x | ofFactor x | ofProduct x => x.integer?
  | multiplicative x o _ y | additive x o _ y => do o.integer? (← x.integer?) (← y.integer?)

def IsNatural {level : Level} (x : Phrase level) : Prop := ∀ l ∈ x.literals, ∃ m, l.natural? = some m ∧ m ≤ safeLimit

variable {level : Level} {x : Phrase level} {l : Literal} {n : Int}

theorem integer?_literal (h : (literal l).integer? = some n) : ∃ m : Nat, l.natural? = some m ∧ m ≤ safeLimit ∧ n = m := by
  obtain ⟨m, hm, hn⟩ := Option.bind_eq_some_iff.1 h
  obtain ⟨rfl, hlimit⟩ := safe?_eq_some_iff.1 hn
  exact ⟨m, hm, hlimit, rfl⟩

theorem integer?_negated (h : (negated l).integer? = some n) : ∃ m : Nat, l.natural? = some m ∧ m ≤ safeLimit ∧ n = -m := by
  obtain ⟨m, hm, hn⟩ := Option.bind_eq_some_iff.1 h
  obtain ⟨rfl, hlimit⟩ := safe?_eq_some_iff.1 hn
  rw [Int.natAbs_neg] at hlimit
  exact ⟨m, hm, hlimit, rfl⟩

theorem isNatural_of_integer? (h : x.integer? = some n) : x.IsNatural := by
  induction x generalizing n with
  | literal l =>
    obtain ⟨m, hm, hlimit, -⟩ := integer?_literal h
    exact List.forall_mem_singleton.2 ⟨m, hm, hlimit⟩
  | negated l =>
    obtain ⟨m, hm, hlimit, -⟩ := integer?_negated h
    exact List.forall_mem_singleton.2 ⟨m, hm, hlimit⟩
  | group x ih => exact ih h
  | ofFactor x ih => exact ih h
  | ofProduct x ih => exact ih h
  | multiplicative x o ho y ihx ihy
  | additive x o ho y ihx ihy =>
    obtain ⟨a, ha, h⟩ := Option.bind_eq_some_iff.1 h
    obtain ⟨b, hb, -⟩ := Option.bind_eq_some_iff.1 h
    exact List.forall_mem_append.2 ⟨ihx ha, ihy hb⟩

theorem readable_of_isNatural (h : x.IsNatural) : x.Readable := by
  intro l hl
  obtain ⟨m, hm, hlimit⟩ := h l hl
  exact (l.isInteger_of_natural? hm hlimit).isFinite

/-- The integer a phrase means is its value. -/
theorem exists_value (h : x.integer? = some n) : ∃ v, x.value = .ok v ∧ v.IsInteger n := by
  induction x generalizing n with
  | literal l =>
    obtain ⟨m, hm, hlimit, rfl⟩ := integer?_literal h
    have hinteger := l.isInteger_of_natural? hm hlimit
    exact ⟨_, Literal.readNumeral_text hinteger.isFinite, hinteger⟩
  | negated l =>
    obtain ⟨m, hm, hlimit, rfl⟩ := integer?_negated h
    have hinteger := l.isInteger_of_natural? hm hlimit
    exact ⟨_, Literal.readNumeral_sign_text hinteger.isFinite, hinteger.neg⟩
  | group x ih => exact ih h
  | ofFactor x ih => exact ih h
  | ofProduct x ih => exact ih h
  | multiplicative x o ho y ihx ihy
  | additive x o ho y ihx ihy =>
    obtain ⟨a, ha, h⟩ := Option.bind_eq_some_iff.1 h
    obtain ⟨b, hb, h⟩ := Option.bind_eq_some_iff.1 h
    obtain ⟨u, hu, hua⟩ := ihx ha
    obtain ⟨v, hv, hvb⟩ := ihy hb
    rw [value, hu, hv]
    exact hua.exists_apply hvb h

end Phrase

/-! ## Calculations -/

/-- What is calculated from a phrase that is about integers in the range where each one is a double. -/
structure IntegerLaw (x : Phrase .sum) : Prop where
  value : ∀ n, x.integer? = some n → ∃ v, calculate x.text = .ok v ∧ v.IsInteger n
  written : ∀ n, x.integer? = some n → ∀ s : Service, ∃ text,
    (text = n.repr ++ ".00" ∨ n = 0 ∧ text = "-0.00") ∧ s.calculate (String.ofList x.text) = (.ok text, ⟨some text⟩)
  /-- One division by zero is enough, whatever the rest of the phrase means. -/
  divisionByZero : x.IsNatural → (∃ d ∈ x.divisions, d.1.integer? ≠ none ∧ d.2.integer? = some 0) →
    calculate x.text = .error .divisionByZero

theorem integerLaw (x : Phrase .sum) : IntegerLaw x := by
  have value (n : Int) (h : x.integer? = some n) : ∃ v, calculate x.text = .ok v ∧ v.IsInteger n := by
    obtain ⟨v, hv, hn⟩ := Phrase.exists_value h
    obtain ⟨-, hcalculate, -⟩ := x.calculate_text (Phrase.readable_of_isNatural (Phrase.isNatural_of_integer? h))
    exact ⟨v, hcalculate.trans hv, hn⟩
  refine ⟨value, fun n h s => ?_, fun hnatural hzero => ?_⟩
  · obtain ⟨v, hv, hn⟩ := value n h
    have hresult : resultText (String.ofList x.text) = .ok v.twoDecimals := by
      rw [resultText, String.toList_ofList, hv]
      rfl
    exact ⟨v.twoDecimals, hn.twoDecimals, by rw [Service.calculate, hresult]⟩
  · obtain ⟨d, hd, hdividend, hdivisor⟩ := hzero
    obtain ⟨m, hm⟩ := Option.ne_none_iff_exists'.1 hdividend
    obtain ⟨u, hu, -⟩ := Phrase.exists_value hm
    obtain ⟨v, hv, hzero⟩ := Phrase.exists_value hdivisor
    obtain ⟨-, -, herror, -⟩ := x.calculate_text (Phrase.readable_of_isNatural hnatural)
    exact herror.2 ⟨d, hd, u, v, hu, hv, hzero.isZero_iff.2 rfl⟩

/-- The sign of a zero shows where it is written, and does not get it past the test of a divisor. -/
theorem integerLaw_negative_zero :
    ∃ x : Phrase .sum, x.text = "0*-3".toList ∧ x.integer? = some 0 ∧
      (∃ v, calculate "0*-3".toList = .ok v ∧ v.IsInteger 0) ∧
      Service.fresh.calculate "0*-3" = (.ok "-0.00", ⟨some "-0.00"⟩) ∧
      calculate "1/(0*-3)".toList = .error .divisionByZero := by
  let one : Phrase .product := .ofFactor (.literal (.ofDigit '1' rfl))
  let zero : Phrase .sum :=
    .ofProduct (.multiplicative (.ofFactor (.literal (.ofDigit '0' rfl))) .mul rfl (.negated (.ofDigit '3' rfl)))
  let quotient : Phrase .sum := .ofProduct (.multiplicative one .div rfl (.group zero))
  have hone : one.integer? = some 1 := by decide +kernel
  have hzero : zero.integer? = some 0 := by decide +kernel
  have hresult : resultText "0*-3" = .ok "-0.00" := by
    have hvalue : calculate "0*-3".toList = .ok (-.ofNat 0) := eq_ok_of_toOption (by decide +kernel)
    have hwritten : (-Binary64.ofNat 0).twoDecimals = "-0.00" := by decide +kernel
    rw [resultText, hvalue, ← hwritten]
    rfl
  have hnatural : quotient.IsNatural :=
    List.forall_mem_append.2 ⟨Phrase.isNatural_of_integer? hone, Phrase.isNatural_of_integer? hzero⟩
  refine ⟨zero, by decide +kernel, hzero, (integerLaw zero).value 0 hzero, by rw [Service.calculate, hresult], ?_⟩
  exact (integerLaw quotient).divisionByZero hnatural
    ⟨_, List.mem_singleton_self _, Option.ne_none_iff_exists'.2 ⟨1, hone⟩, hzero⟩

/-- Past the range a sum is rounded. -/
example : (calculate "9007199254740992+1".toList).toOption = some (.ofNat 9007199254740992) := by decide +kernel

end Calculator
