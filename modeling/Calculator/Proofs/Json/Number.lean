/-
  Calculator.Proofs.Json.Number — numbers are read as they are written.

  Each part of a number is read as the grammar has it, if what follows cannot go on with it: digits
  if no digit follows, a fraction that is missing if no point follows, an exponent that is missing if
  no letter of one follows. Main statement: `reads_numeral`; reading and passing over
  (`reads_number`, `reads_numberSkipper`) differ only in the range that the first asks for.
-/

import Calculator.Proofs.Json.Reader

namespace Calculator.Json

open Reader

namespace Numeral

variable {b : UInt8} {d : Nat} {ds : List Nat} {input rest : List UInt8}

/-! ## Digits -/

theorem toNat_ofUInt8 (b : UInt8) : (Char.ofUInt8 b).toNat = b.toNat := by
  show b.toUInt32.toNat = b.toNat
  simp

theorem isDigit_iff (c : Char) : c.isDigit = true ↔ 48 ≤ c.toNat ∧ c.toNat ≤ 57 := by
  simp only [Char.isDigit, Bool.and_eq_true, decide_eq_true_eq, ge_iff_le, UInt32.le_iff_toNat_le]
  exact Iff.rfl

theorem digit?_eq_some_iff : digit? b = some d ↔ d < 10 ∧ b.toNat = '0'.toNat + d := by
  have hzero : '0'.toNat = 48 := rfl
  have hdigit := isDigit_iff (Char.ofUInt8 b)
  rw [toNat_ofUInt8] at hdigit
  unfold digit?
  by_cases h : (Char.ofUInt8 b).isDigit = true
  · have := hdigit.1 h
    simp only [h, if_true, toNat_ofUInt8, hzero, Option.some.injEq]
    omega
  · have : ¬ (48 ≤ b.toNat ∧ b.toNat ≤ 57) := fun hb => h (hdigit.2 hb)
    simp only [h, if_false, hzero, Bool.false_eq_true, reduceCtorEq, false_iff]
    omega

theorem isSome_digit?_eq (b : UInt8) : (digit? b).isSome = (Char.ofUInt8 b).isDigit := by
  unfold digit?
  by_cases h : (Char.ofUInt8 b).isDigit <;> simp [h]

def NoDigit (rest : List UInt8) : Prop := ∀ b, rest.head? = some b → (Char.ofUInt8 b).isDigit = false

theorem noDigit_of_ends (h : Ends rest) : NoDigit rest := by
  intro b hb
  have := h b hb
  unfold continuesNumber at this
  exact (Bool.or_eq_false_iff.1 this).1

theorem written_digits (input : List UInt8) : Digits (digits input) input (afterDigits input) := by
  induction input with
  | nil => exact .nil
  | cons b input ih =>
    cases h : digit? b with
    | none =>
      have hb : isDigit b = false := by rw [isDigit, h]; rfl
      have hdigits : digits (b :: input) = [] := by simp [digits, hb]
      have hafter : afterDigits (b :: input) = b :: input := List.dropWhile_cons_of_neg (by simp [hb])
      rw [hdigits, hafter]
      exact .nil
    | some d =>
      have hb : isDigit b = true := by rw [isDigit, h]; rfl
      have hdigits : digits (b :: input) = d :: digits input := by simp [digits, hb, h]
      have hafter : afterDigits (b :: input) = afterDigits input := List.dropWhile_cons_of_pos hb
      obtain ⟨hd, hb⟩ := digit?_eq_some_iff.1 h
      rw [hdigits, hafter]
      exact .cons hd hb ih

theorem digits_eq (h : Digits ds input rest) (hr : NoDigit rest) : digits input = ds ∧ afterDigits input = rest := by
  induction h with
  | @nil rest =>
    cases rest with
    | nil => exact ⟨rfl, rfl⟩
    | cons b rest =>
      have hb : isDigit b = false := by rw [isDigit, isSome_digit?_eq]; exact hr b rfl
      exact ⟨by simp [digits, hb], List.dropWhile_cons_of_neg (by simp [hb])⟩
  | @cons d ds b input rest hd hb _ ih =>
    obtain ⟨ih, ih'⟩ := ih hr
    have h := digit?_eq_some_iff.2 ⟨hd, hb⟩
    have hdigit : isDigit b = true := by rw [isDigit, h]; rfl
    refine ⟨?_, ?_⟩
    · rw [← ih]
      simp [digits, hdigit, h]
    · rw [← ih']
      exact List.dropWhile_cons_of_pos hdigit

theorem written_someDigits (h : someDigits.read input = .ok (ds, rest)) : ds ≠ [] ∧ Digits ds input rest := by
  simp only [someDigits] at h
  split at h
  · cases h
  split at h
  next d hd =>
    cases h
    obtain ⟨hd, hb⟩ := digit?_eq_some_iff.1 hd
    exact ⟨List.cons_ne_nil _ _, .cons hd hb (written_digits _)⟩
  · cases h

theorem read_someDigits (hne : ds ≠ []) (h : Digits ds input rest) (hr : NoDigit rest) :
    someDigits.read input = .ok (ds, rest) := by
  cases h with
  | nil => exact absurd rfl hne
  | cons hd hb htail =>
    obtain ⟨hdigits, hafter⟩ := digits_eq htail hr
    simp only [someDigits, digit?_eq_some_iff.2 ⟨hd, hb⟩, hdigits, hafter]

theorem written_wholeDigits (h : wholeDigits.read input = .ok (ds, rest)) :
    ds ≠ [] ∧ (ds.head? = some 0 → ds = [0]) ∧ Digits ds input rest := by
  simp only [wholeDigits] at h
  split at h
  · cases h
  next hno =>
  obtain ⟨hne, hds⟩ := written_someDigits h
  refine ⟨hne, fun hzero => ?_, hds⟩
  match ds, hzero with
  | [0], _ => rfl
  | 0 :: d :: ds, _ => exact absurd h (hno d ds rest)

theorem read_wholeDigits (hne : ds ≠ []) (hzero : ds.head? = some 0 → ds = [0]) (h : Digits ds input rest)
    (hr : NoDigit rest) : wholeDigits.read input = .ok (ds, rest) := by
  have hread := read_someDigits hne h hr
  simp only [wholeDigits]
  split
  next d ds' rest' heq =>
    rw [hread] at heq
    cases heq
    cases hzero rfl
  · exact hread

/-! ## Fraction and exponent -/

variable {fraction : Option (List Nat)} {exponent : Option (Bool × List Nat)}

theorem written_fractionPart (h : fractionPart input = .ok (fraction, rest)) : Fraction fraction input rest := by
  unfold fractionPart at h
  split at h
  next b tail =>
    split at h
    next hb =>
      rw [read_map] at h
      obtain ⟨taken, hd, heq⟩ := map_eq_ok.1 h
      cases heq
      obtain ⟨hne, hds⟩ := written_someDigits hd
      rw [← toUInt8_ofUInt8 b, hb]
      exact .some hne hds
    · cases h
      exact .none
  · cases h
    exact .none

theorem read_fractionPart (h : Fraction fraction input rest) (hr : NoDigit rest)
    (hpoint : ∀ b, rest.head? = some b → Char.ofUInt8 b ≠ '.') : fractionPart input = .ok (fraction, rest) := by
  cases h with
  | none =>
    cases input with
    | nil => rfl
    | cons b input => exact if_neg (hpoint b rfl)
  | some hne hds =>
    have hmark : Char.ofUInt8 '.'.toUInt8 = '.' := by decide
    simp only [fractionPart, hmark, if_pos, read_map, read_someDigits hne hds hr]
    rfl

theorem read_someDigits_map {f : List Nat → Option (Bool × List Nat)} {value : Option (Bool × List Nat)}
    (h : (someDigits.map f).read input = .ok (value, rest)) : ∃ ds, value = f ds ∧ ds ≠ [] ∧ Digits ds input rest := by
  rw [read_map] at h
  obtain ⟨taken, hd, heq⟩ := map_eq_ok.1 h
  cases heq
  exact ⟨taken.1, rfl, written_someDigits hd⟩

theorem written_exponentPart (h : exponentPart input = .ok (exponent, rest)) : Exponent exponent input rest := by
  unfold exponentPart at h
  split at h
  next e tail =>
    split at h
    next he =>
      rw [← toUInt8_ofUInt8 e]
      split at h
      next s after =>
        split at h
        next hs =>
          obtain ⟨ds, rfl, hne, hds⟩ := read_someDigits_map h
          rw [← toUInt8_ofUInt8 s, hs]
          exact .positive he hne hds
        split at h
        next hs =>
          obtain ⟨ds, rfl, hne, hds⟩ := read_someDigits_map h
          rw [← toUInt8_ofUInt8 s, hs]
          exact .negative he hne hds
        · obtain ⟨ds, rfl, hne, hds⟩ := read_someDigits_map h
          exact .unsigned he hne hds
      · cases h
    · cases h
      exact .none
  · cases h
    exact .none

theorem ofUInt8_toUInt8_letter {e : Char} (he : e = 'e' ∨ e = 'E') : Char.ofUInt8 e.toUInt8 = e := by
  rcases he with rfl | rfl <;> decide

/-- Digits start with no sign. -/
theorem Digits.head (h : Digits ds input rest) (hne : ds ≠ []) :
    ∃ b tail, input = b :: tail ∧ (Char.ofUInt8 b).isDigit ∧ Char.ofUInt8 b ≠ '+' ∧ Char.ofUInt8 b ≠ '-' := by
  cases h with
  | nil => exact absurd rfl hne
  | @cons d ds b tail _ hd hb _ =>
    have hdigit : (Char.ofUInt8 b).isDigit = true := by
      rw [← isSome_digit?_eq, digit?_eq_some_iff.2 ⟨hd, hb⟩]
      rfl
    refine ⟨b, tail, rfl, hdigit, fun h => ?_, fun h => ?_⟩
    · rw [h] at hdigit
      cases hdigit
    · rw [h] at hdigit
      cases hdigit

theorem read_exponentPart (h : Exponent exponent input rest) (hr : Ends rest) : exponentPart input = .ok (exponent, rest) := by
  have hplus : Char.ofUInt8 '+'.toUInt8 = '+' := by decide
  have hminus : Char.ofUInt8 '-'.toUInt8 = '-' := by decide
  cases h with
  | none =>
    cases input with
    | nil => rfl
    | cons b input =>
      have hb := hr b rfl
      refine if_neg fun he => ?_
      unfold continuesNumber at hb
      rcases he with he | he
      · rw [he] at hb
        cases hb
      · rw [he] at hb
        cases hb
  | @unsigned e ds input _ he hne hds =>
    have hread := read_someDigits hne hds (noDigit_of_ends hr)
    obtain ⟨b, tail, rfl, -, hnplus, hnminus⟩ := hds.head hne
    simp only [exponentPart, ofUInt8_toUInt8_letter he, if_pos he, if_neg hnplus, if_neg hnminus, read_map, hread]
    rfl
  | positive he hne hds =>
    have hread := read_someDigits hne hds (noDigit_of_ends hr)
    simp only [exponentPart, ofUInt8_toUInt8_letter he, if_pos he, hplus, if_pos, read_map, hread]
    rfl
  | negative he hne hds =>
    have hread := read_someDigits hne hds (noDigit_of_ends hr)
    have hne' : ('-' : Char) ≠ '+' := by decide
    simp only [exponentPart, ofUInt8_toUInt8_letter he, if_pos he, hminus, if_neg hne', if_pos, read_map, hread]
    rfl

/-! ## Whole numbers -/

/-- An exponent, or what follows where it is missing, starts with neither digit nor point. -/
theorem Exponent.head (h : Exponent exponent input rest) (hr : Ends rest) :
    NoDigit input ∧ ∀ b, input.head? = some b → Char.ofUInt8 b ≠ '.' := by
  have letter {e : Char} {tail : List UInt8} (he : e = 'e' ∨ e = 'E') : NoDigit (e.toUInt8 :: tail) ∧
      ∀ b, (e.toUInt8 :: tail).head? = some b → Char.ofUInt8 b ≠ '.' := by
    refine ⟨fun b hb => ?_, fun b hb => ?_⟩
    · cases hb
      rcases he with rfl | rfl <;> decide
    · cases hb
      rcases he with rfl | rfl <;> decide
  cases h with
  | none =>
    refine ⟨noDigit_of_ends hr, fun b hb he => ?_⟩
    have := hr b hb
    unfold continuesNumber at this
    rw [he] at this
    cases this
  | unsigned he => exact letter he
  | positive he => exact letter he
  | negative he => exact letter he

theorem Fraction.noDigit (h : Fraction fraction input rest) (hr : NoDigit rest) : NoDigit input := by
  cases h with
  | none => exact hr
  | some =>
    intro b hb
    cases hb
    decide

/-- A number starts with a minus or a digit. -/
theorem Written.head {n : Numeral} (h : Written n input rest) :
    ∃ b tail, input = b :: tail ∧ (Char.ofUInt8 b = '-' ∨ (Char.ofUInt8 b).isDigit) := by
  cases h with
  | intro hne _ hds _ _ =>
    cases n.negative with
    | true => exact ⟨_, _, rfl, .inl (by decide)⟩
    | false =>
      obtain ⟨b, tail, rfl, hb, -, -⟩ := hds.head hne
      exact ⟨b, tail, rfl, .inr hb⟩

theorem written_unsigned {negative : Bool} {n : Numeral} (h : (unsigned negative).read input = .ok (n, rest)) :
    n.negative = negative ∧ Written n ((if negative then ['-'.toUInt8] else []) ++ input) rest := by
  simp only [unsigned] at h
  split at h
  · cases h
  next hw =>
  split at h
  · cases h
  next hf =>
  split at h
  · cases h
  next he =>
  cases h
  obtain ⟨hne, hzero, hds⟩ := written_wholeDigits hw
  exact ⟨rfl, .intro hne hzero hds (written_fractionPart hf) (written_exponentPart he)⟩

theorem read_of_written {n : Numeral} (h : Written n input rest) (hr : Ends rest) : reader.read input = .ok (n, rest) := by
  cases h with
  | @intro input behindWhole behindFraction _ hne hzero hds hf he =>
    obtain ⟨hdigit, hpoint⟩ := he.head hr
    have hunsigned : (unsigned n.negative).read input = .ok (n, rest) := by
      simp only [unsigned, read_wholeDigits hne hzero hds (hf.noDigit hdigit), read_fractionPart hf hdigit hpoint,
        read_exponentPart he hr]
    cases hn : n.negative with
    | true =>
      rw [hn] at hunsigned
      have hminus : Char.ofUInt8 '-'.toUInt8 = '-' := by decide
      simp only [if_pos, List.cons_append, List.nil_append, reader, hminus]
      exact hunsigned
    | false =>
      rw [hn] at hunsigned
      obtain ⟨b, tail, rfl, -, -, hminus⟩ := hds.head hne
      simp only [Bool.false_eq_true, if_false, List.nil_append, reader, if_neg hminus]
      exact hunsigned

theorem reads_numeral : Reads reader Written .ok where
  read_eq h hr := read_of_written h hr
  exists_written h := by
    simp only [reader] at h
    split at h
    next b tail =>
      split at h
      next hb =>
        obtain ⟨-, hw⟩ := written_unsigned h
        rw [← toUInt8_ofUInt8 b, hb]
        exact ⟨_, hw, rfl⟩
      · obtain ⟨-, hw⟩ := written_unsigned h
        exact ⟨_, hw, rfl⟩
    · cases h

/-! ## Faults of form -/

theorem readsForm_someDigits : ReadsForm someDigits := by
  intro input
  simp only [someDigits]
  split
  · exact .truncated
  split
  · exact .ok _
  · exact .illFormed

theorem readsForm_wholeDigits : ReadsForm wholeDigits := by
  intro input
  simp only [wholeDigits]
  split
  · exact .illFormed
  · exact readsForm_someDigits input

theorem ofForm_fractionPart (input : List UInt8) : OfForm (fractionPart input) := by
  unfold fractionPart
  split
  · split
    · exact readsForm_someDigits.map _ _
    · exact .ok _
  · exact .ok _

theorem ofForm_exponentPart (input : List UInt8) : OfForm (exponentPart input) := by
  unfold exponentPart
  split
  · split
    · split
      · split
        · exact readsForm_someDigits.map _ _
        split
        · exact readsForm_someDigits.map _ _
        · exact readsForm_someDigits.map _ _
      · exact .truncated
    · exact .ok _
  · exact .ok _

theorem readsForm_unsigned (negative : Bool) : ReadsForm (unsigned negative) := by
  intro input
  simp only [unsigned]
  split
  next h => exact (readsForm_wholeDigits input).error h
  split
  next h => exact (ofForm_fractionPart _).error h
  split
  next h => exact (ofForm_exponentPart _).error h
  · exact .ok _

theorem readsForm_reader : ReadsForm reader := by
  intro input
  simp only [reader]
  split
  · split
    · exact readsForm_unsigned true _
    · exact readsForm_unsigned false _
  · exact .truncated

end Numeral

theorem readsForm_number : ReadsForm Number.reader := by
  intro input
  simp only [Number.reader]
  split
  next h => exact (Numeral.readsForm_reader input).error h
  split
  · exact .ok _
  · exact .illFormed

theorem reads_number : Reads Number.reader Numeral.Written fun n => orIllFormed n.value? where
  read_eq {n _ _} h hr := by
    simp only [Number.reader, Numeral.reads_numeral.read_eq h hr, Except.map]
    cases n.value? <;> rfl
  exists_written h := by
    simp only [Number.reader] at h
    split at h
    · cases h
    next n rest hn =>
    split at h
    next value hv =>
      cases h
      obtain ⟨n', hn', he⟩ := Numeral.reads_numeral.exists_written hn
      cases he
      refine ⟨n, hn', ?_⟩
      rw [hv]
      rfl
    · cases h

theorem reads_numberSkipper : Reads Number.skipper Numeral.Written fun _ => .ok () where
  read_eq h hr := by
    simp only [Number.skipper, orFail, read_map, Numeral.reads_numeral.read_eq h hr]
    rfl
  exists_written h := by
    simp only [Number.skipper, orFail, read_map] at h
    cases hread : Numeral.reader.read _ with
    | error e =>
      rw [hread] at h
      cases h
    | ok taken =>
      rw [hread] at h
      cases h
      obtain ⟨n, hn, -⟩ := Numeral.reads_numeral.exists_written hread
      exact ⟨n, hn, rfl⟩

end Calculator.Json
