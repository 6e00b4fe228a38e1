/-
  Calculator.Proofs.Settings.Text — the numbers and strings of variables are read as they are spelled.

  A trimmed text is what characters to be dropped enclose (`isTrimmed_iff`). A run without quotes is a number if it is a
  decimal with a point or a whole number of 64 bits (`bare_iff`), and a string goes up to the first quote that no escape
  has taken (`quoted?_append`, `quoted_of_quoted?`).
-/

import Mathlib.Data.Option.Basic
import Calculator.Proofs.Run
import Calculator.Settings.Environment
import Calculator.Settings.Spelling

namespace Calculator.Settings.Environment

/-! ## Spaces -/

section

variable {drop : Char → Bool} {s core front rest : List Char} {c : Char}

theorem isSpace_iff : isSpace c = true ↔ IsSpace c := by simp [isSpace, IsSpace, or_assoc]

theorem isSeparator_iff : isSeparator c = true ↔ IsSeparator c := by simp [isSeparator, IsSeparator]

theorem any_eq_false_iff {x : Option Char} : x.any drop = false ↔ ∀ c ∈ x, ¬ drop c = true := by
  cases x <;> simp

/-- What is left is what the characters to be dropped at both ends enclose. -/
theorem isTrimmed_iff : IsTrimmed (drop · = true) s core ↔ trim drop s = core := by
  constructor
  · intro h
    obtain ⟨front, back, rfl, hdrop, hhead, hlast⟩ := h
    rw [trim]
    rcases core with _ | ⟨c, core⟩
    · have hall : (front ++ [] ++ back).dropWhile drop = [] := by
        rw [List.append_nil, ← List.append_nil (front ++ back)]
        exact List.dropWhile_append_of_pos hdrop
      rw [hall]
      rfl
    · have hhead : (c :: core ++ back).head?.any drop = false := any_eq_false_iff.2 hhead
      have hlast : (c :: core).reverse.head?.any drop = false := by
        rw [List.head?_reverse]
        exact any_eq_false_iff.2 hlast
      have hback : ∀ c ∈ back.reverse, drop c := fun c hc => hdrop c (List.mem_append_right _ (List.mem_reverse.1 hc))
      rw [List.append_assoc, dropWhile_run_append (fun c hc => hdrop c (List.mem_append_left _ hc)) hhead,
        List.reverse_append, dropWhile_run_append hback hlast, List.reverse_reverse]
  · intro h
    subst h
    -- Between the two runs that are dropped stands what is left.
    obtain ⟨middle, hmiddle⟩ : ∃ middle, s.dropWhile drop = middle := ⟨_, rfl⟩
    have hsplit : (middle.reverse.dropWhile drop).reverse ++ (middle.reverse.takeWhile drop).reverse = middle := by
      rw [← List.reverse_append, List.takeWhile_append_dropWhile, List.reverse_reverse]
    rw [trim, hmiddle]
    refine ⟨s.takeWhile drop, (middle.reverse.takeWhile drop).reverse, ?_, fun c hc => ?_, fun c hc => ?_, fun c hc => ?_⟩
    · rw [List.append_assoc, hsplit, ← hmiddle, List.takeWhile_append_dropWhile]
    · rcases List.mem_append.1 hc with hc | hc
      · exact of_mem_takeWhile c hc
      · exact of_mem_takeWhile c (List.mem_reverse.1 hc)
    · have hhead := head?_dropWhile (p := drop) s
      rw [hmiddle, ← hsplit, List.head?_append, Option.mem_def.1 hc] at hhead
      simpa using hhead
    · rw [List.getLast?_reverse] at hc
      exact any_eq_false_iff.1 (head?_dropWhile middle.reverse) c hc

theorem skipSpaces_append (hfront : ∀ c ∈ front, IsSpace c) (hrest : ∀ c ∈ rest.head?, ¬ IsSpace c) :
    skipSpaces (front ++ rest) = rest :=
  dropWhile_run_append (fun c hc => isSpace_iff.2 (hfront c hc)) (any_eq_false_iff.2 fun c hc => (not_congr isSpace_iff).2 (hrest c hc))

theorem skipSpaces_eq_self (hrest : ∀ c ∈ rest.head?, ¬ IsSpace c) : skipSpaces rest = rest :=
  @skipSpaces_append [] rest nofun hrest

/-- The spaces that are skipped. -/
theorem exists_skipSpaces (s : List Char) : ∃ front, s = front ++ skipSpaces s ∧ (∀ c ∈ front, IsSpace c) ∧
    ∀ c ∈ (skipSpaces s).head?, ¬ IsSpace c := by
  refine ⟨s.takeWhile isSpace, List.takeWhile_append_dropWhile.symm, fun c hc => ?_, fun c hc => ?_⟩
  · exact isSpace_iff.1 (of_mem_takeWhile c hc)
  · exact (not_congr isSpace_iff).1 (any_eq_false_iff.1 (head?_dropWhile s) c hc)

theorem behind?_eq_some_iff {word : List Char} : behind? word s = some rest ↔ s = word ++ rest := by
  rw [behind?]
  split
  · next h =>
    obtain ⟨rest', rfl⟩ := List.isPrefixOf_iff_prefix.1 h
    simp [eq_comm]
  · next h =>
    constructor
    · nofun
    · rintro rfl
      simp at h

end

/-! ## Reading numbers -/

section

variable {s sign digits rest : List Char} {c : Char} {n m v : Nat}

theorem unsigned_append (hsign : Sign sign) (hrest : ∀ c ∈ rest.head?, c ≠ '+' ∧ c ≠ '-') :
    Literal.unsigned (sign ++ rest) = rest := by
  cases hsign with
  | plus => rfl
  | minus => rfl
  | none =>
    rw [List.nil_append, Literal.unsigned]
    · rintro rest rfl
      exact (hrest '+' rfl).1 rfl
    · rintro rest rfl
      exact (hrest '-' rfl).2 rfl

theorem exists_unsigned (s : List Char) : ∃ sign, Sign sign ∧ s = sign ++ Literal.unsigned s ∧
    (sign = ['-'] ↔ s.head? = some '-') := by
  unfold Literal.unsigned
  split
  · exact ⟨['+'], .plus, rfl, by simp⟩
  · exact ⟨['-'], .minus, rfl, by simp⟩
  · next hplus hminus =>
    refine ⟨[], .none, rfl, by simp, fun h => ?_⟩
    obtain ⟨rest, rfl⟩ : ∃ rest, s = '-' :: rest := List.head?_eq_some_iff.1 h
    exact absurd rfl (hminus rest)

theorem value?_ten (c : Char) : Literal.natural?.value? 10 c = if c.isDigit then some (c.toNat - '0'.toNat) else none := by
  simp only [Literal.natural?.value?]
  split
  · next h =>
    have hle : c.toNat ≤ '9'.toNat := (Char.isDigit_iff_toNat.1 h).2
    rw [if_pos (by simp at hle ⊢; omega)]
  split
  · exact if_neg (by omega)
  split
  · exact if_neg (by omega)
  · rfl

theorem digits_ten_eq_some_iff :
    digits.foldlM (fun n c => (Literal.natural?.value? 10 c).map (n * 10 + ·)) m = some n ↔
      (∀ c ∈ digits, c.isDigit) ∧ Nat.ofDigitChars 10 digits m = n := by
  induction digits generalizing m with
  | nil => simp
  | cons c digits ih =>
    rw [List.foldlM_cons, value?_ten, Nat.ofDigitChars_cons, List.forall_mem_cons, Nat.mul_comm 10 m]
    split
    · next h => simp [h, ih]
    · next h => simp [h]

theorem natural?_ten_eq_some_iff : Literal.natural? 10 digits = some n ↔
    digits ≠ [] ∧ (∀ c ∈ digits, c.isDigit) ∧ Nat.ofDigitChars 10 digits 0 = n := by
  rw [Literal.natural?, ← digits_ten_eq_some_iff]
  simp

theorem value?_sixteen_of_lt (h : v < 16) :
    Literal.natural?.value? 16 v.digitChar = some v ∧ Literal.natural?.value? 16 v.digitChar.toUpper = some v := by
  have hvalue : ∀ v < 16, Literal.natural?.value? 16 v.digitChar = some v ∧
      Literal.natural?.value? 16 v.digitChar.toUpper = some v := by decide
  exact hvalue v h

theorem digit_of_value?_sixteen (h : Literal.natural?.value? 16 c = some v) :
    v < 16 ∧ (c = v.digitChar ∨ c = v.digitChar.toUpper) := by
  have hascii : ∀ n < 128, ∀ v ∈ Literal.natural?.value? 16 (.ofNat n),
      v < 16 ∧ (Char.ofNat n = v.digitChar ∨ Char.ofNat n = v.digitChar.toUpper) := by decide +kernel
  have hlt : c.toNat < 128 := by
    simp only [Literal.natural?.value?] at h
    split at h
    · next hdigit => exact Nat.lt_of_le_of_lt (Char.isDigit_iff_toNat.1 hdigit).2 (by decide)
    split at h
    · next hlower => exact Nat.lt_of_le_of_lt (Char.le_def.1 hlower.2) (by decide)
    split at h
    · next hupper => exact Nat.lt_of_le_of_lt (Char.le_def.1 hupper.2) (by decide)
    · cases h
  have hc := hascii c.toNat hlt v
  rw [Char.ofNat_toNat] at hc
  exact hc h

theorem digits_sixteen_eq_some_iff :
    digits.foldlM (fun n c => (Literal.natural?.value? 16 c).map (n * 16 + ·)) m = some n ↔ Hexadecimal m digits n := by
  induction digits generalizing m with
  | nil =>
    constructor
    · intro h
      cases h
      exact .nil
    · intro h
      cases h
      rfl
  | cons c digits ih =>
    rw [List.foldlM_cons, Option.bind_eq_bind, Option.bind_eq_some_iff]
    constructor
    · intro h
      obtain ⟨n', hvalue, h⟩ := h
      obtain ⟨v, hdigit, rfl⟩ := Option.map_eq_some_iff.1 hvalue
      obtain ⟨hv, rfl | rfl⟩ := digit_of_value?_sixteen hdigit
      · exact .lower hv (ih.1 h)
      · exact .upper hv (ih.1 h)
    · intro h
      cases h with
      | lower hv h => exact ⟨_, by rw [(value?_sixteen_of_lt hv).1]; rfl, ih.2 h⟩
      | upper hv h => exact ⟨_, by rw [(value?_sixteen_of_lt hv).2]; rfl, ih.2 h⟩

theorem natural?_sixteen_eq_some_iff : Literal.natural? 16 digits = some n ↔ digits ≠ [] ∧ Hexadecimal 0 digits n := by
  rw [Literal.natural?, ← digits_sixteen_eq_some_iff]
  simp

theorem unsigned_digits (hsign : Sign sign) (hdigits : ∀ c ∈ digits, c.isDigit) : Literal.unsigned (sign ++ digits) = digits := by
  refine unsigned_append hsign fun c hc => ?_
  have hdigit := hdigits c (List.mem_of_mem_head? hc)
  constructor
  · rintro rfl
    cases hdigit
  · rintro rfl
    cases hdigit

theorem fits_natural : Literal.fits 64 false n ↔ n < UInt64.size := decide_eq_true_iff

theorem fits_negative : Literal.fits 64 true n ↔ n ≤ UInt64.size / 2 := decide_eq_true_iff

theorem isWord_iff : Literal.isWord 64 s ↔ Word s := by
  rw [Literal.isWord, Option.any_eq_true]
  constructor
  · intro h
    obtain ⟨n, hn, hfits⟩ := h
    obtain ⟨hne, hdigits, rfl⟩ := natural?_ten_eq_some_iff.1 hn
    obtain ⟨sign, hsign, hs, hminus⟩ := exists_unsigned s
    by_cases hneg : sign = ['-']
    · rw [hminus.1 hneg] at hfits
      rw [hs, hneg]
      exact .negative hne hdigits (fits_negative.1 hfits)
    · rw [beq_false_of_ne (mt hminus.2 hneg)] at hfits
      rw [hs]
      exact .natural hsign hneg hne hdigits (fits_natural.1 hfits)
  · intro h
    cases h with
    | @natural sign digits hsign hneg hne hdigits hlt =>
      obtain ⟨sign', hsign', hs, hminus⟩ := exists_unsigned (sign ++ digits)
      rw [unsigned_digits hsign hdigits] at hs ⊢
      obtain rfl := List.append_cancel_right hs
      rw [beq_false_of_ne (mt hminus.2 hneg)]
      exact ⟨_, natural?_ten_eq_some_iff.2 ⟨hne, hdigits, rfl⟩, fits_natural.2 hlt⟩
    | negative hne hdigits hle =>
      exact ⟨_, natural?_ten_eq_some_iff.2 ⟨hne, hdigits, rfl⟩, fits_negative.2 hle⟩

theorem isExponent_iff : Literal.isExponent s ↔
    ∃ sign digits, s = sign ++ digits ∧ Sign sign ∧ digits ≠ [] ∧ ∀ c ∈ digits, c.isDigit := by
  rw [Literal.isExponent]
  constructor
  · intro h
    obtain ⟨sign, hsign, hs, -⟩ := exists_unsigned s
    have h : ¬ (Literal.unsigned s).isEmpty ∧ ∀ c ∈ Literal.unsigned s, c.isDigit := by simpa using h
    exact ⟨sign, _, hs, hsign, fun he => h.1 (by rw [he]; rfl), h.2⟩
  · intro h
    obtain ⟨sign, digits, rfl, hsign, hne, hdigits⟩ := h
    rw [unsigned_digits hsign hdigits]
    simpa [hne] using hdigits

theorem isExponentMark_iff : Literal.isExponentMark c ↔ c = 'e' ∨ c = 'E' := by simp [Literal.isExponentMark]

/-- Behind a mantissa stands nothing, or a mark and what makes up the exponent. -/
theorem exponent_iff (hmark : s.head?.any (!Literal.isExponentMark ·) = false) :
    (s.isEmpty || Literal.isExponent (s.drop 1)) ↔ Exponent s := by
  rcases s with _ | ⟨mark, s⟩
  · exact ⟨fun _ => .none, fun _ => rfl⟩
  have hmark' : mark = 'e' ∨ mark = 'E' := isExponentMark_iff.1 (by simpa using hmark)
  rw [List.isEmpty_cons, Bool.false_or, List.drop_one, List.tail_cons, isExponent_iff]
  constructor
  · intro h
    obtain ⟨sign, digits, rfl, hsign, hne, hdigits⟩ := h
    exact .some hmark' hsign hne hdigits
  · intro h
    cases h with
    | some _ hsign hne hdigits => exact ⟨_, _, rfl, hsign, hne, hdigits⟩

theorem not_mem_exponent (h : Exponent s) : '.' ∉ s := by
  cases h with
  | none => exact List.not_mem_nil
  | some hmark hsign _ hdigits =>
    intro hmem
    rcases List.mem_cons.1 hmem with rfl | hmem
    · rcases hmark with h | h <;> cases h
    rcases List.mem_append.1 hmem with hmem | hmem
    · cases hsign <;> simp at hmem
    · cases hdigits _ hmem

theorem ne_point_of_isDigit (h : c.isDigit) : c ≠ '.' := by
  rintro rfl
  cases h

theorem isMantissa_iff (h : '.' ∈ s) : Literal.isMantissa s ↔
    ∃ whole fraction, s = whole ++ '.' :: fraction ∧ whole ++ fraction ≠ [] ∧ ∀ c ∈ whole ++ fraction, c.isDigit := by
  simp only [Literal.isMantissa, Bool.and_eq_true, decide_eq_true_eq, List.any_eq_true, List.all_eq_true, Bool.or_eq_true,
    beq_iff_eq]
  have hmem {d : Char} {whole fraction : List Char} (hd : d ≠ '.') : d ∈ whole ++ '.' :: fraction ↔ d ∈ whole ++ fraction := by
    simp [hd]
  constructor
  · intro hm
    obtain ⟨⟨⟨d, hd, hdigit⟩, hall⟩, hcount⟩ := hm
    obtain ⟨whole, fraction, rfl, hwhole⟩ := List.eq_append_cons_of_mem h
    have hfraction : '.' ∉ fraction := by
      rw [List.count_append, List.count_cons_self] at hcount
      exact List.count_eq_zero.1 (by omega)
    refine ⟨whole, fraction, rfl, ?_, fun c hc => ?_⟩
    · exact List.ne_nil_of_mem ((hmem (ne_point_of_isDigit hdigit)).1 hd)
    · have hpoint : c ≠ '.' := by
        rintro rfl
        exact (List.mem_append.1 hc).elim hwhole hfraction
      exact (hall c ((hmem hpoint).2 hc)).resolve_right hpoint
  · intro hm
    obtain ⟨whole, fraction, rfl, hne, hdigits⟩ := hm
    obtain ⟨d, hd⟩ := List.exists_mem_of_ne_nil _ hne
    have hpoint : '.' ∉ whole ++ fraction := fun hc => ne_point_of_isDigit (hdigits _ hc) rfl
    refine ⟨⟨⟨d, (hmem (ne_point_of_isDigit (hdigits d hd))).2 hd, hdigits d hd⟩, fun c hc => ?_⟩, ?_⟩
    · by_cases hc' : c = '.'
      · exact .inr hc'
      · exact .inl (hdigits c ((hmem hc').1 hc))
    · apply Nat.le_of_eq
      rw [List.count_append, List.count_cons_self, ← Nat.add_assoc, ← List.count_append, List.count_eq_zero.2 hpoint]

/-- A character of a mantissa is none of an exponent's mark and none of a sign. -/
theorem ne_sign_of_mantissa (h : c.isDigit ∨ c = '.') : Literal.isExponentMark c = false ∧ c ≠ '+' ∧ c ≠ '-' := by
  have hne {d : Char} (hdigit : d.isDigit = false) (hpoint : d ≠ '.') : c ≠ d := by
    rintro rfl
    rcases h with h | h
    · rw [hdigit] at h
      cases h
    · exact hpoint h
  refine ⟨Bool.eq_false_iff.2 fun hmark => ?_, hne (by decide) (by decide), hne (by decide) (by decide)⟩
  exact (isExponentMark_iff.1 hmark).elim (hne (by decide) (by decide)) (hne (by decide) (by decide))

/-- The mantissa is what stands before the exponent. -/
theorem exists_mantissa (s : List Char) : ∃ sign mantissa exponent, s = sign ++ mantissa ++ exponent ∧ Sign sign ∧
    exponent.head?.any (!Literal.isExponentMark ·) = false ∧ Literal.mantissaAndExponent s = (mantissa, exponent) := by
  obtain ⟨sign, hsign, hs, -⟩ := exists_unsigned s
  refine ⟨sign, _, _, ?_, hsign, head?_dropWhile _, rfl⟩
  rw [List.append_assoc, List.takeWhile_append_dropWhile]
  exact hs

theorem mantissaAndExponent_append {sign mantissa exponent : List Char} (hsign : Sign sign) (hne : mantissa ≠ [])
    (hmantissa : ∀ c ∈ mantissa, c.isDigit ∨ c = '.') (hmark : exponent.head?.any (!Literal.isExponentMark ·) = false) :
    Literal.mantissaAndExponent (sign ++ mantissa ++ exponent) = (mantissa, exponent) := by
  obtain ⟨c, mantissa, rfl⟩ := List.exists_cons_of_ne_nil hne
  have hunsigned : Literal.unsigned (sign ++ (c :: mantissa ++ exponent)) = c :: mantissa ++ exponent := by
    refine unsigned_append hsign fun d hd => (ne_sign_of_mantissa (hmantissa d ?_)).2
    cases hd
    exact List.mem_cons_self
  have hrun : ∀ d ∈ c :: mantissa, !Literal.isExponentMark d := by
    intro d hd
    rw [(ne_sign_of_mantissa (hmantissa d hd)).1]
    rfl
  rw [Literal.mantissaAndExponent, List.append_assoc, hunsigned, takeWhile_run_append hrun hmark,
    dropWhile_run_append hrun hmark]

theorem isDecimal_iff (h : '.' ∈ s) : Literal.isDecimal s ↔ Pointed s := by
  constructor
  · intro hdecimal
    obtain ⟨sign, mantissa, exponent, hs, hsign, hmark, hparts⟩ := exists_mantissa s
    rw [Literal.isDecimal, hparts] at hdecimal
    obtain ⟨hmantissa, hexponent⟩ := Bool.and_eq_true_iff.1 hdecimal
    have hexponent := (exponent_iff hmark).1 hexponent
    have hpoint : '.' ∈ mantissa := by
      rw [hs] at h
      rcases List.mem_append.1 h with h | h
      · rcases List.mem_append.1 h with h | h
        · cases hsign <;> simp at h
        · exact h
      · exact absurd h (not_mem_exponent hexponent)
    obtain ⟨whole, fraction, rfl, hne, hdigits⟩ := (isMantissa_iff hpoint).1 hmantissa
    rw [hs, ← List.append_assoc]
    exact .intro hsign hne hdigits hexponent
  · intro h
    cases h with
    | @intro sign whole fraction exponent hsign hne hdigits hexponent =>
      have hmark : exponent.head?.any (!Literal.isExponentMark ·) = false := by
        cases hexponent with
        | none => rfl
        | some hmark => simpa using isExponentMark_iff.2 hmark
      have hchar : ∀ c ∈ whole ++ '.' :: fraction, c.isDigit ∨ c = '.' := by
        intro c hc
        rcases List.mem_append.1 hc with hc | hc
        · exact .inl (hdigits c (List.mem_append_left _ hc))
        rcases List.mem_cons.1 hc with hc | hc
        · exact .inr hc
        · exact .inl (hdigits c (List.mem_append_right _ hc))
      rw [Literal.isDecimal, List.append_assoc sign, mantissaAndExponent_append hsign (by simp) hchar hmark]
      have hmantissa := (isMantissa_iff (by simp)).2 ⟨whole, fraction, rfl, hne, hdigits⟩
      exact Bool.and_eq_true_iff.2 ⟨hmantissa, (exponent_iff hmark).2 hexponent⟩

theorem bare_iff {v : Value} : bare s = v ↔ Bare s v := by
  have hpoint (h : Pointed s) : '.' ∈ s := by
    cases h
    simp
  have hdecimal : (s.contains '.' && Literal.isDecimal s) ↔ Pointed s := by
    rw [Bool.and_eq_true, List.contains_iff_mem]
    exact ⟨fun h => (isDecimal_iff h.1).1 h.2, fun h => ⟨hpoint h, (isDecimal_iff (hpoint h)).2 h⟩⟩
  have hnumber (h : Pointed s ∨ Word s) : bare s = .number (.ofList s) := by
    rw [bare]
    split
    · rfl
    · next hno => exact if_pos (isWord_iff.2 (h.resolve_left (mt hdecimal.2 hno)))
  have htext (hp : ¬ Pointed s) (hw : ¬ Word s) : bare s = .text (.ofList s) := by
    rw [bare, if_neg (mt hdecimal.1 hp), if_neg (mt isWord_iff.1 hw)]
  constructor
  · rintro rfl
    by_cases h : Pointed s ∨ Word s
    · rw [hnumber h]
      exact .number h
    · obtain ⟨hp, hw⟩ := not_or.1 h
      rw [htext hp hw]
      exact .text hp hw
  · intro h
    cases h with
    | number h => exact hnumber h
    | text hp hw => exact htext hp hw

end

/-! ## Reading strings -/

section

variable {e s text rest : List Char} {c : Char} {n code fuel : Nat}

theorem guard_bind_eq_some_iff {α : Type} {p : Prop} [Decidable p] {f : Unit → Option α} {a : α} :
    (guard p >>= f) = some a ↔ p ∧ f () = some a := by
  by_cases hp : p
  · simp [guard, hp]
  · rw [guard, if_neg hp]
    exact ⟨nofun, fun h => absurd h.1 hp⟩

theorem codePoint?_eq_some_iff : codePoint? n s = some (c, rest) ↔
    ∃ digits code, s = digits ++ rest ∧ digits.length = n ∧ Literal.natural? 16 digits = some code ∧ code.isValidChar ∧
      c = .ofNat code := by
  rw [codePoint?, guard_bind_eq_some_iff, Option.bind_eq_bind, Option.bind_eq_some_iff]
  simp only [guard_bind_eq_some_iff]
  constructor
  · intro h
    obtain ⟨hlen, code, hcode, hvalid, h⟩ := h
    cases h
    exact ⟨_, code, (List.take_append_drop n s).symm, hlen, hcode, hvalid, rfl⟩
  · intro h
    obtain ⟨digits, code, rfl, rfl, hcode, hvalid, rfl⟩ := h
    rw [List.take_left, List.drop_left]
    exact ⟨rfl, code, hcode, hvalid, rfl⟩

theorem escape?_append (h : Escape e c) : escape? (e ++ rest) = some (c, rest) := by
  cases h with
  | short hlen hhex hvalid =>
    have hne := List.ne_nil_of_length_eq_add_one hlen
    exact codePoint?_eq_some_iff.2 ⟨_, _, rfl, hlen, natural?_sixteen_eq_some_iff.2 ⟨hne, hhex⟩, hvalid, rfl⟩
  | long hlen hhex hvalid =>
    have hne := List.ne_nil_of_length_eq_add_one hlen
    exact codePoint?_eq_some_iff.2 ⟨_, _, rfl, hlen, natural?_sixteen_eq_some_iff.2 ⟨hne, hhex⟩, hvalid, rfl⟩
  | backspace | tab | newline | formFeed | carriageReturn | quote | backslash => rfl

theorem escape_of_escape? (h : escape? s = some (c, rest)) : ∃ e, s = e ++ rest ∧ Escape e c := by
  unfold escape? at h
  split at h
  · cases h
    exact ⟨_, rfl, .backspace⟩
  · cases h
    exact ⟨_, rfl, .tab⟩
  · cases h
    exact ⟨_, rfl, .newline⟩
  · cases h
    exact ⟨_, rfl, .formFeed⟩
  · cases h
    exact ⟨_, rfl, .carriageReturn⟩
  · cases h
    exact ⟨_, rfl, .quote⟩
  · cases h
    exact ⟨_, rfl, .backslash⟩
  · obtain ⟨digits, code, rfl, hlen, hcode, hvalid, rfl⟩ := codePoint?_eq_some_iff.1 h
    exact ⟨'u' :: digits, rfl, .short hlen (natural?_sixteen_eq_some_iff.1 hcode).2 hvalid⟩
  · obtain ⟨digits, code, rfl, hlen, hcode, hvalid, rfl⟩ := codePoint?_eq_some_iff.1 h
    exact ⟨'U' :: digits, rfl, .long hlen (natural?_sixteen_eq_some_iff.1 hcode).2 hvalid⟩
  · cases h

theorem isPlain_iff : isPlain c ↔ c = '\t' ∨ 0x20 ≤ c.toNat ∧ c.toNat ≠ 0x7f := by simp [isPlain]

theorem quoted?_append (h : Quoted s text) (done : List Char) (hfuel : s.length < fuel) :
    quoted? fuel done (s ++ '"' :: rest) = some (.ofList (done.reverse ++ text), rest) := by
  obtain ⟨fuel, rfl⟩ := Nat.exists_eq_add_one.2 (Nat.zero_lt_of_lt hfuel)
  induction h generalizing fuel done with
  | nil => simp [quoted?]
  | @plain c s text hquote hbackslash hplain _ ih =>
    rw [List.length_cons] at hfuel
    obtain ⟨fuel, rfl⟩ := Nat.exists_eq_add_one.2 (Nat.zero_lt_of_lt (Nat.lt_of_succ_lt_succ hfuel))
    rw [List.cons_append, quoted?, if_neg hquote, if_neg hbackslash, if_pos (isPlain_iff.2 hplain),
      ih _ _ (by omega)]
    simp
  | @escape c e s text hescape _ ih =>
    rw [List.length_cons, List.length_append] at hfuel
    obtain ⟨fuel, rfl⟩ := Nat.exists_eq_add_one.2 (show 0 < fuel by omega)
    rw [List.cons_append, List.append_assoc, quoted?, if_neg (by decide), if_pos rfl, escape?_append hescape]
    exact (ih _ _ (by omega)).trans (by simp)

theorem quoted_of_quoted? {done : List Char} {result : String} (h : quoted? fuel done s = some (result, rest)) :
    ∃ body text, s = body ++ '"' :: rest ∧ Quoted body text ∧ result = .ofList (done.reverse ++ text) := by
  induction fuel generalizing done s with
  | zero => cases h
  | succ fuel ih =>
    rcases s with _ | ⟨c, s⟩
    · cases h
    rw [quoted?] at h
    split at h
    · next hquote =>
      cases h
      exact ⟨[], [], by rw [hquote]; rfl, .nil, by simp⟩
    next hquote =>
    split at h
    · next hbackslash =>
      obtain ⟨⟨c', s'⟩, hescape, hrest⟩ := Option.bind_eq_some_iff.1 h
      obtain ⟨e, rfl, he⟩ := escape_of_escape? hescape
      obtain ⟨body, text, rfl, hbody, rfl⟩ := ih hrest
      exact ⟨_, _, by rw [hbackslash, List.cons_append, List.append_assoc], .escape he hbody, by simp⟩
    next hbackslash =>
    split at h
    · next hplain =>
      obtain ⟨body, text, rfl, hbody, rfl⟩ := ih h
      exact ⟨_, _, rfl, .plain hquote hbackslash (isPlain_iff.1 hplain) hbody, by simp⟩
    · cases h

end

end Calculator.Settings.Environment
