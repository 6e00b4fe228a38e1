/-
  Calculator.Proofs.Resubmission — a result handed in again as an expression.

  What is written for a finite double is a literal with two decimals, under a minus if the double is
  negative, zero included (`Phrase.text_ofHundredths`): an expression, so that it passes the form check and
  is read as the double nearest to its hundredths. That need not be the double it was written for, but it has
  the same hundredths, and the sign is that of the numeral; so it is written in the same way
  (`resultText_twoDecimals`).

  Main statement: `calculate_again`.
-/

import Calculator.Proofs.Meaning
import Calculator.Proofs.Rounding
import Calculator.Service

namespace Calculator

attribute [local instance] natPower

/-! ## Hundredths as a literal -/

namespace Literal

/-- A number of hundredths: all digits of the whole part, and two behind the point. -/
def ofHundredths (n : Nat) : Literal where
  whole := Nat.toDigits 10 (n / 100)
  fraction := some (Nat.toDigits 10 (n / 10 % 10) ++ Nat.toDigits 10 (n % 10))
  isDigit_of_mem_whole := fun _ hc => Nat.isDigit_of_mem_toDigits (by decide) (by decide) hc
  isDigit_of_mem_fraction := by
    rintro digits ⟨⟩ c hc
    rcases List.mem_append.1 hc with hc | hc
    · exact Nat.isDigit_of_mem_toDigits (by decide) (by decide) hc
    · exact Nat.isDigit_of_mem_toDigits (by decide) (by decide) hc
  whole_ne_nil := Nat.toDigits_ne_nil
  fraction_ne_nil := by simp [Nat.toDigits_ne_nil]

theorem text_ofHundredths (n : Nat) : (ofHundredths n).text = (Binary64.hundredthsText n).toList := by
  simp [text, ofHundredths, Binary64.hundredthsText, Nat.toList_repr]

/-- It is read as the double nearest to the hundredths. -/
theorem toBinary64_ofHundredths (n : Nat) :
    (ofHundredths n).toBinary64 = .ofRatio false (n * Binary64.unitsPerOne) 100 := by
  have hread (m : Nat) : Nat.ofDigitChars 10 (Nat.toDigits 10 m) 0 = m := Nat.ofDigitChars_toDigits (by decide) (by decide)
  have hone {m : Nat} (h : m < 10) : (Nat.toDigits 10 m).length = 1 := by rw [Nat.toDigits_of_lt_base h]; rfl
  have htenths : n / 10 % 10 < 10 := Nat.mod_lt _ (by decide)
  have hhundredths : n % 10 < 10 := Nat.mod_lt _ (by decide)
  have hscaled : Decimal.scaled ⟨(ofHundredths n).whole, (ofHundredths n).fraction.getD []⟩ = n := by
    show Nat.ofDigitChars 10 (Nat.toDigits 10 (n / 100) ++ (_ ++ _)) 0 = n
    rw [Nat.ofDigitChars_append, Nat.ofDigitChars_append, hread, Nat.ofDigitChars_eq_ofDigitChars_zero, hread,
      Nat.ofDigitChars_eq_ofDigitChars_zero, hread, hone htenths, hone hhundredths]
    omega
  have hlength : ((ofHundredths n).fraction.getD []).length = 2 := by
    show (_ ++ _ : List Char).length = 2
    rw [List.length_append, hone htenths, hone hhundredths]
  rw [toBinary64, Decimal.toBinary64, hscaled, hlength]
  rfl

end Literal

/-! ## What is written for a finite double -/

namespace Phrase

def ofHundredths (negative : Bool) (n : Nat) : Phrase .sum :=
  .ofProduct (.ofFactor (if negative then .negated (.ofHundredths n) else .literal (.ofHundredths n)))

theorem text_ofHundredths (negative : Bool) (n : Nat) :
    (ofHundredths negative n).text = (Binary64.twoDecimals.minus negative ++ Binary64.hundredthsText n).toList := by
  rw [String.toList_append, ← Literal.text_ofHundredths]
  cases negative with
  | true => rfl
  | false => rfl

end Phrase

namespace Binary64

variable {negative : Bool} {units : Nat}

/-- The double that is read where a double of so many units was written. -/
theorem exists_ofRatio_hundredths (h : Representable units) :
    ∃ h', ofRatio false (hundredths units * unitsPerOne) 100 =
      .finite false (roundUnits (hundredths units * unitsPerOne) 100) h' := by
  have hfinite : (ofRatio false (hundredths units * unitsPerOne) 100).isFinite = true :=
    (isFinite_ofRatio_iff (by decide)).2 (hundredths_lt_overflow h)
  unfold ofRatio at hfinite ⊢
  split at hfinite
  · next hlt => exact ⟨⟨hlt, exists_eq_roundUnits _ _⟩, dif_pos hlt⟩
  · cases hfinite

/-- With the sign it had, it is written as before. -/
theorem exists_evaluate_ofHundredths (h : Representable units) :
    ∃ x : Binary64, evaluate (Phrase.ofHundredths negative (hundredths units)).text = .ok x ∧
      x.twoDecimals = twoDecimals.minus negative ++ hundredthsText (hundredths units) := by
  obtain ⟨h', hread⟩ := exists_ofRatio_hundredths h
  have hliteral : (Literal.ofHundredths (hundredths units)).toBinary64 = .finite false _ h' := by
    rw [Literal.toBinary64_ofHundredths, hread]
  have hfinite : (Literal.ofHundredths (hundredths units)).toBinary64.isFinite = true := by
    rw [hliteral]
    rfl
  have hsame := hundredths_roundUnits_hundredths h
  cases negative with
  | true =>
    refine ⟨_, (Phrase.evaluate_text ?_).trans (Literal.readNumeral_sign_text hfinite), ?_⟩
    · exact fun l hl => List.mem_singleton.1 hl ▸ hfinite
    · rw [hliteral]
      exact congrArg (twoDecimals.minus true ++ hundredthsText ·) hsame
  | false =>
    refine ⟨_, (Phrase.evaluate_text ?_).trans (Literal.readNumeral_text hfinite), ?_⟩
    · exact fun l hl => List.mem_singleton.1 hl ▸ hfinite
    · rw [hliteral]
      exact congrArg (twoDecimals.minus false ++ hundredthsText ·) hsame

end Binary64

/-- What is written for a finite double is an expression whose result is written in the same way. -/
theorem resultText_twoDecimals {x : Binary64} (h : x.isFinite = true) :
    isWellFormed x.twoDecimals.toList = true ∧ resultText x.twoDecimals = .ok x.twoDecimals := by
  cases x with
  | nan => cases h
  | infinity negative => cases h
  | finite negative units hunits =>
    have htext := Phrase.text_ofHundredths negative (Binary64.hundredths units)
    have hform := (Phrase.ofHundredths negative (Binary64.hundredths units)).isWellFormed_text
    obtain ⟨y, hvalue, hwritten⟩ := @Binary64.exists_evaluate_ofHundredths negative _ hunits
    rw [htext] at hform hvalue
    refine ⟨hform, ?_⟩
    have hagain : calculate (Binary64.finite negative units hunits).twoDecimals.toList = .ok y :=
      (if_pos hform).trans hvalue
    rw [resultText, hagain]
    exact congrArg Except.ok hwritten

/-! ## The service -/

/-- A finite value is given and stored with two decimals. That text passes the form check, and calculating it,
by any service, gives and stores the very same text. -/
theorem calculate_again (s : Service) (expression : String) (x : Binary64) (h : calculate expression.toList = .ok x)
    (hfinite : x.isFinite = true) :
    s.calculate expression = (.ok x.twoDecimals, ⟨some x.twoDecimals⟩) ∧ isWellFormed x.twoDecimals.toList = true ∧
      ∀ s' : Service, s'.calculate x.twoDecimals = (.ok x.twoDecimals, ⟨some x.twoDecimals⟩) := by
  obtain ⟨hform, hagain⟩ := resultText_twoDecimals hfinite
  have hresult : resultText expression = .ok x.twoDecimals := by
    rw [resultText, h]
    rfl
  refine ⟨?_, hform, fun s' => ?_⟩
  · rw [Service.calculate, hresult]
  · rw [Service.calculate, hagain]

/-- A thousandth below zero is written as a zero that keeps its sign, and stays that. Beyond 2^53 the text is that
of the rounded value. -/
theorem calculate_again_zero_and_large :
    (∃ x, calculate "0-1/1000".toList = .ok x ∧ x.isFinite = true ∧
      Service.fresh.calculate "0-1/1000" = (.ok "-0.00", ⟨some "-0.00"⟩) ∧ isWellFormed "-0.00".toList = true ∧
        Service.fresh.calculate "-0.00" = (.ok "-0.00", ⟨some "-0.00"⟩)) ∧
    ∃ x, calculate "9007199254740993*3".toList = .ok x ∧ x.isFinite = true ∧
      Service.fresh.calculate "9007199254740993*3" = (.ok "27021597764222976.00", ⟨some "27021597764222976.00"⟩) ∧
        isWellFormed "27021597764222976.00".toList = true ∧
        Service.fresh.calculate "27021597764222976.00" = (.ok "27021597764222976.00", ⟨some "27021597764222976.00"⟩) := by
  constructor
  · have hvalue : calculate "0-1/1000".toList = .ok (-.ofRatio false Binary64.unitsPerOne 1000) :=
      eq_ok_of_toOption (by decide +kernel)
    have hfinite : (-Binary64.ofRatio false Binary64.unitsPerOne 1000).isFinite = true := by decide +kernel
    have hwritten : (-Binary64.ofRatio false Binary64.unitsPerOne 1000).twoDecimals = "-0.00" := by decide +kernel
    obtain ⟨hresult, hform, hagain⟩ := calculate_again .fresh "0-1/1000" _ hvalue hfinite
    rw [hwritten] at hresult hform hagain
    exact ⟨_, hvalue, hfinite, hresult, hform, hagain .fresh⟩
  · have hvalue : calculate "9007199254740993*3".toList = .ok (.ofNat 27021597764222976) :=
      eq_ok_of_toOption (by decide +kernel)
    have hfinite : (Binary64.ofNat 27021597764222976).isFinite = true := by decide +kernel
    have hwritten : (Binary64.ofNat 27021597764222976).twoDecimals = "27021597764222976.00" := by decide +kernel
    obtain ⟨hresult, hform, hagain⟩ := calculate_again .fresh "9007199254740993*3" _ hvalue hfinite
    rw [hwritten] at hresult hform hagain
    exact ⟨_, hvalue, hfinite, hresult, hform, hagain .fresh⟩

end Calculator
