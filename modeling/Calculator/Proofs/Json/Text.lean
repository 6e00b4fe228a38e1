/-
  Calculator.Proofs.Json.Text — strings are read as they are written.

  The bytes between quotes are a row of pieces, whichever way `\u` is read (`exists_pieces`). Passing
  over needs no more than that (`reads_skipQuoted`). Reading makes of the pieces their bytes, and stops
  at a surrogate that stands alone: what follows a leading one in its place, a quote, a plain byte
  or a short escape, is never the start of another `\u` (`bytesOnto_pieces`, `reads_quoted`).
-/

import Calculator.Proofs.Json.Reader

namespace Calculator.Json

open Reader

variable {b : UInt8} {v : Nat} {u : UInt16} {c : Char} {ps : List Piece} {input rest : List UInt8}

/-! ## Escapes -/

/-- What holds of the bytes by their numbers holds of all of them. -/
theorem forall_byte {p : UInt8 → Prop} (h : ∀ n < 256, p (UInt8.ofNat n)) (b : UInt8) : p b := by
  have := h b.toNat b.toNat_lt
  rwa [UInt8.ofNat_toNat] at this

theorem hexDigit_of_hexValue? : hexValue? b = some v → HexDigit b v := by
  have h : ∀ n < 256, ∀ v ∈ hexValue? (UInt8.ofNat n),
      v < 16 ∧ (Char.ofUInt8 (UInt8.ofNat n) = v.digitChar ∨ Char.ofUInt8 (UInt8.ofNat n) = v.digitChar.toUpper) := by
    decide +kernel
  exact forall_byte (p := fun b => ∀ v ∈ hexValue? b, HexDigit b v) h b v

theorem hexValue?_of_hexDigit (h : HexDigit b v) : hexValue? b = some v := by
  have hvalue : ∀ v < 16, hexValue? v.digitChar.toUInt8 = some v ∧ hexValue? v.digitChar.toUpper.toUInt8 = some v := by
    decide
  obtain ⟨hv, hb⟩ := h
  rw [← toUInt8_ofUInt8 b]
  rcases hb with hb | hb
  · rw [hb]
    exact (hvalue v hv).1
  · rw [hb]
    exact (hvalue v hv).2

theorem read_codeUnit (h : CodeUnit u input rest) : codeUnit.read input = .ok (u.toNat, rest) := by
  cases h with
  | intro h₁ h₂ h₃ h₄ hu =>
    simp only [codeUnit, hexValue?_of_hexDigit h₁, hexValue?_of_hexDigit h₂, hexValue?_of_hexDigit h₃,
      hexValue?_of_hexDigit h₄, hu]

theorem exists_codeUnit {n : Nat} (h : codeUnit.read input = .ok (n, rest)) : ∃ u, CodeUnit u input rest ∧ u.toNat = n := by
  simp only [codeUnit] at h
  split at h
  · split at h
    next v₁ v₂ v₃ v₄ h₁ h₂ h₃ h₄ =>
      cases h
      have h₁ := hexDigit_of_hexValue? h₁
      have h₂ := hexDigit_of_hexValue? h₂
      have h₃ := hexDigit_of_hexValue? h₃
      have h₄ := hexDigit_of_hexValue? h₄
      have hu : (UInt16.ofNat (((v₁ * 16 + v₂) * 16 + v₃) * 16 + v₄)).toNat = ((v₁ * 16 + v₂) * 16 + v₃) * 16 + v₄ := by
        rw [UInt16.toNat_ofNat']
        have := h₁.1
        have := h₂.1
        have := h₃.1
        have := h₄.1
        omega
      exact ⟨_, .intro h₁ h₂ h₃ h₄ hu, hu⟩
    · cases h
  · cases h

theorem shortEscape?_eq_some_iff {letter : Char} : shortEscape? letter = some c ↔ ShortEscape letter c := by
  constructor
  · intro h
    unfold shortEscape? at h
    split at h
    · cases h
      exact .quote
    · cases h
      exact .backslash
    · cases h
      exact .slash
    · cases h
      exact .backspace
    · cases h
      exact .formFeed
    · cases h
      exact .lineFeed
    · cases h
      exact .carriageReturn
    · cases h
      exact .tab
    · cases h
  · intro h
    cases h <;> rfl

theorem ofUInt8_ne_u (h : ShortEscape (Char.ofUInt8 b) c) : Char.ofUInt8 b ≠ 'u' := by
  intro hb
  rw [hb] at h
  cases h

theorem read_escape_short (unicode : Reader (List UInt8)) (h : ShortEscape (Char.ofUInt8 b) c) :
    (escape unicode).read (b :: rest) = .ok (String.utf8EncodeChar c, rest) := by
  simp only [escape, if_neg (ofUInt8_ne_u h), shortEscape?_eq_some_iff.2 h]

theorem read_escape_unicode (unicode : Reader (List UInt8)) (input : List UInt8) :
    (escape unicode).read ('u'.toUInt8 :: input) = unicode.read input := by
  have hu : Char.ofUInt8 'u'.toUInt8 = 'u' := by decide
  simp only [escape, hu, if_pos]

/-- What a way of reading `\u` takes is code units, the first of them behind the `u`. -/
def TakesUnits (unicode : Reader (List UInt8)) : Prop :=
  ∀ {input rest bytes : List UInt8}, unicode.read input = .ok (bytes, rest) →
    ∃ front, ∀ {ps : List Piece} {behind : List UInt8}, Pieces ps rest behind →
      Pieces (front ++ ps) ('\\'.toUInt8 :: 'u'.toUInt8 :: input) behind

theorem takesUnits_codeUnit : TakesUnits (codeUnit.map fun _ => []) := by
  intro input rest bytes h
  rw [read_map] at h
  obtain ⟨taken, hread, heq⟩ := map_eq_ok.1 h
  cases heq
  obtain ⟨u, hu, -⟩ := exists_codeUnit hread
  exact ⟨[.unit u], fun hps => .unit hu hps⟩

theorem takesUnits_escapedChar : TakesUnits (escapedChar.map String.utf8EncodeChar) := by
  intro input rest bytes h
  rw [read_map] at h
  obtain ⟨taken, hread, heq⟩ := map_eq_ok.1 h
  cases heq
  simp only [escapedChar] at hread
  split at hread
  · cases hread
  next hunit =>
  obtain ⟨u, hu, rfl⟩ := exists_codeUnit hunit
  split at hread
  · cases hread
  split at hread
  · split at hread
    · cases hread
    next hexpect =>
    obtain rfl := (expect_eq_ok_iff rfl).1 hexpect
    split at hread
    · cases hread
    next htrailing =>
    obtain ⟨v, hv, rfl⟩ := exists_codeUnit htrailing
    split at hread
    · simp only [Except.ok.injEq] at hread
      subst hread
      exact ⟨[.unit u, .unit v], fun hps => .unit hu (.unit hv hps)⟩
    · cases hread
  · cases hread
    exact ⟨[.unit u], fun hps => .unit hu hps⟩

/-! ## The bytes between quotes -/

section

variable {unicode : Reader (List UInt8)} {done : List UInt8}

theorem bytesOnto_quote : bytesOnto unicode done ('"'.toUInt8 :: rest) = .ok (done.reverse, rest) := by
  have hquote : Char.ofUInt8 '"'.toUInt8 = '"' := by decide
  rw [bytesOnto, if_pos hquote]

theorem bytesOnto_plain (hb : 0x20 ≤ b) (hquote : b ≠ '"'.toUInt8) (hbackslash : b ≠ '\\'.toUInt8) :
    bytesOnto unicode done (b :: rest) = bytesOnto unicode (b :: done) rest := by
  have hquote' : Char.ofUInt8 b ≠ '"' := mt (ofUInt8_eq_iff (by decide)).1 hquote
  have hbackslash' : Char.ofUInt8 b ≠ '\\' := mt (ofUInt8_eq_iff (by decide)).1 hbackslash
  rw [bytesOnto, if_neg hquote', if_neg hbackslash', if_neg (UInt8.not_lt.2 hb)]

theorem bytesOnto_backslash : bytesOnto unicode done ('\\'.toUInt8 :: input) =
    (escape unicode).read input >>= fun (bytes, rest) => bytesOnto unicode (bytes.reverse ++ done) rest := by
  have hquote : Char.ofUInt8 '\\'.toUInt8 ≠ '"' := by decide
  have hbackslash : Char.ofUInt8 '\\'.toUInt8 = '\\' := by decide
  rw [bytesOnto, if_neg hquote, if_pos hbackslash]
  split
  next h =>
    rw [h]
    rfl
  next h =>
    rw [h, List.reverseAux_eq]
    rfl

theorem exists_pieces (hunicode : TakesUnits unicode) {bytes : List UInt8}
    (h : bytesOnto unicode done input = .ok (bytes, rest)) : ∃ ps, Pieces ps input rest := by
  fun_induction bytesOnto unicode done input with
  | case1 => cases h
  | case2 done b input hb =>
    cases h
    obtain rfl := (ofUInt8_eq_iff (by decide)).1 hb
    exact ⟨[], .nil⟩
  | case3 => cases h
  | case4 done b input _ hb taken behind hread ih =>
    obtain ⟨ps, hps⟩ := ih h
    obtain rfl := (ofUInt8_eq_iff (by decide)).1 hb
    cases input with
    | nil => cases hread
    | cons a input =>
      by_cases ha : Char.ofUInt8 a = 'u'
      · obtain rfl := (ofUInt8_eq_iff (by decide)).1 ha
        rw [read_escape_unicode] at hread
        obtain ⟨front, hfront⟩ := hunicode hread
        exact ⟨front ++ ps, hfront hps⟩
      · simp only [escape, if_neg ha] at hread
        split at hread
        next c hc =>
          cases hread
          exact ⟨.short c :: ps, .short (shortEscape?_eq_some_iff.1 hc) hps⟩
        · cases hread
  | case5 => cases h
  | case6 done b input hquote hbackslash hb ih =>
    obtain ⟨ps, hps⟩ := ih h
    have hquote' := mt (ofUInt8_eq_iff (by decide)).2 hquote
    have hbackslash' := mt (ofUInt8_eq_iff (by decide)).2 hbackslash
    exact ⟨.plain b :: ps, .plain (UInt8.not_lt.1 hb) hquote' hbackslash' hps⟩

end

theorem read_of_pieces_codeUnit (h : Pieces ps input rest) (done : List UInt8) :
    ∃ bytes, bytesOnto (codeUnit.map fun _ => []) done input = .ok (bytes, rest) := by
  induction h generalizing done with
  | nil => exact ⟨_, bytesOnto_quote⟩
  | plain hb hquote hbackslash _ ih =>
    rw [bytesOnto_plain hb hquote hbackslash]
    exact ih _
  | short hc _ ih =>
    rw [bytesOnto_backslash, read_escape_short _ hc]
    exact ih _
  | unit hu _ ih =>
    rw [bytesOnto_backslash, read_escape_unicode, read_map, read_codeUnit hu]
    exact ih _

theorem reads_skipQuoted : Reads skipQuoted Pieces fun _ => .ok () where
  read_eq h _ := by
    obtain ⟨bytes, hread⟩ := read_of_pieces_codeUnit h []
    simp only [skipQuoted, read_map, quotedBytes, hread]
    rfl
  exists_written h := by
    simp only [skipQuoted, read_map, quotedBytes] at h
    obtain ⟨taken, hread, heq⟩ := map_eq_ok.1 h
    cases heq
    obtain ⟨ps, hps⟩ := exists_pieces takesUnits_codeUnit hread
    exact ⟨ps, hps, rfl⟩

/-- Where no `\u` follows, a pair is not completed. -/
theorem expect_of_pieces (h : Pieces ps input rest) (hps : ∀ u tail, ps ≠ .unit u :: tail) :
    expect ['\\', 'u'] input = .error .illFormed := by
  have hquote : Char.ofUInt8 '"'.toUInt8 ≠ '\\' := by decide
  have hbackslash : Char.ofUInt8 '\\'.toUInt8 = '\\' := by decide
  cases h with
  | nil => exact if_neg hquote
  | plain _ _ hb _ => exact if_neg (mt (ofUInt8_eq_iff (by decide)).1 hb)
  | short hc _ => simp only [expect, if_pos hbackslash, if_neg (ofUInt8_ne_u hc)]
  | unit => exact absurd rfl (hps _ _)

section

variable {behind : List UInt8}

theorem read_escapedChar_trailing (h : CodeUnit u input rest) (hu : isTrailingSurrogate u.toNat = true) :
    escapedChar.read input = .error .illFormed := by
  simp only [escapedChar, read_codeUnit h, hu, if_true]

theorem read_escapedChar_unit (h : CodeUnit u input rest) (hu : ¬ isTrailingSurrogate u.toNat = true)
    (hleading : ¬ isLeadingSurrogate u.toNat = true) : escapedChar.read input = .ok (Char.ofNat u.toNat, rest) := by
  simp only [escapedChar, read_codeUnit h, if_neg hu, if_neg hleading]

/-- Two code units, the first of which is a leading surrogate. -/
theorem read_escapedChar_pair {v : UInt16} (h : CodeUnit u input ('\\'.toUInt8 :: 'u'.toUInt8 :: behind))
    (hu : ¬ isTrailingSurrogate u.toNat = true) (hleading : isLeadingSurrogate u.toNat = true) (hv : CodeUnit v behind rest) :
    escapedChar.read input =
      if isTrailingSurrogate v.toNat then .ok (pairChar u.toNat v.toNat, rest) else .error .illFormed := by
  have hexpect : expect ['\\', 'u'] ('\\'.toUInt8 :: 'u'.toUInt8 :: behind) = .ok behind :=
    (expect_eq_ok_iff rfl).2 rfl
  simp only [escapedChar, read_codeUnit h, if_neg hu, if_pos hleading, hexpect, read_codeUnit hv]

/-- A leading surrogate, and then anything but a code unit. -/
theorem read_escapedChar_alone (h : CodeUnit u input behind) (hu : ¬ isTrailingSurrogate u.toNat = true)
    (hleading : isLeadingSurrogate u.toNat = true) (hps : Pieces ps behind rest) (hno : ∀ v tail, ps ≠ .unit v :: tail) :
    escapedChar.read input = .error .illFormed := by
  simp only [escapedChar, read_codeUnit h, if_neg hu, if_pos hleading, expect_of_pieces hps hno]

theorem bytesOnto_unicode (done : List UInt8) :
    bytesOnto (escapedChar.map String.utf8EncodeChar) done ('\\'.toUInt8 :: 'u'.toUInt8 :: input) =
      escapedChar.read input >>= fun (c, rest) =>
        bytesOnto (escapedChar.map String.utf8EncodeChar) ((String.utf8EncodeChar c).reverse ++ done) rest := by
  rw [bytesOnto_backslash, read_escape_unicode, read_map]
  cases escapedChar.read input <;> rfl

end

/-- Reading the bytes of pieces, or finding a surrogate alone. -/
theorem bytesOnto_pieces (h : Pieces ps input rest) (done : List UInt8) :
    bytesOnto (escapedChar.map String.utf8EncodeChar) done input =
      (orIllFormed (Piece.bytes? ps)).map fun tail => (done.reverse ++ tail, rest) := by
  -- the bytes of one piece, or of a pair, go in front of those of what follows it
  have append (front done : List UInt8) (bytes? : Option (List UInt8)) :
      ((orIllFormed bytes?).map fun tail => ((front.reverse ++ done).reverse ++ tail, rest)) =
        (orIllFormed (bytes?.map (front ++ ·))).map fun tail => (done.reverse ++ tail, rest) := by
    cases bytes? with
    | none => rfl
    | some bytes => simp [orIllFormed, Except.map]
  fun_induction Piece.bytes? ps generalizing done input with
  | case1 =>
    cases h
    rw [bytesOnto_quote]
    simp [orIllFormed, Except.map]
  | case2 b ps ih =>
    cases h with
    | plain hb hquote hbackslash hps =>
      rw [bytesOnto_plain hb hquote hbackslash, ih hps]
      exact append [b] done _
  | case3 c ps ih =>
    cases h with
    | short hc hps =>
      rw [bytesOnto_backslash, read_escape_short _ hc]
      show bytesOnto _ _ _ = _
      rw [ih hps]
      exact append _ done _
  | case4 u ps hu =>
    cases h with
    | unit hunit _ =>
      rw [bytesOnto_unicode, read_escapedChar_trailing hunit hu]
      rfl
  | case5 u hu hleading v ps hv ih =>
    cases h with
    | unit hunit hps =>
      cases hps with
      | unit htrailing hps =>
        rw [bytesOnto_unicode, read_escapedChar_pair hunit hu hleading htrailing, if_pos hv]
        show bytesOnto _ _ _ = _
        rw [ih hps]
        exact append _ done _
  | case6 u hu hleading v ps hv =>
    cases h with
    | unit hunit hps =>
      cases hps with
      | unit htrailing _ =>
        rw [bytesOnto_unicode, read_escapedChar_pair hunit hu hleading htrailing, if_neg hv]
        rfl
  | case7 u ps hu hleading hno =>
    cases h with
    | unit hunit hps =>
      rw [bytesOnto_unicode, read_escapedChar_alone hunit hu hleading hps hno]
      rfl
  | case8 u ps hu hleading ih =>
    cases h with
    | unit hunit hps =>
      rw [bytesOnto_unicode, read_escapedChar_unit hunit hu hleading]
      show bytesOnto _ _ _ = _
      rw [ih hps]
      exact append _ done _

theorem read_quoted (h : Pieces ps input rest) : quoted.read input = (orIllFormed (Piece.text? ps)).map (·, rest) := by
  simp only [quoted, quotedBytes, bytesOnto_pieces h]
  unfold Piece.text?
  cases Piece.bytes? ps with
  | none => rfl
  | some bytes =>
    cases hs : String.fromUTF8? ⟨bytes.toArray⟩ with
    | none => simp [hs, orIllFormed, Except.map]
    | some s => simp [hs, orIllFormed, Except.map]

theorem reads_quoted : Reads quoted Pieces fun ps => orIllFormed (Piece.text? ps) where
  read_eq h _ := read_quoted h
  exists_written {input rest value} h := by
    have hpieces : ∃ ps, Pieces ps input rest := by
      have h := h
      simp only [quoted] at h
      split at h
      · cases h
      next hread =>
      split at h
      · cases h
        exact exists_pieces takesUnits_escapedChar hread
      · cases h
    obtain ⟨ps, hps⟩ := hpieces
    rw [read_quoted hps] at h
    obtain ⟨text, htext, heq⟩ := map_eq_ok.1 h
    cases heq
    exact ⟨ps, hps, htext⟩

/-! ## Faults of form -/

theorem readsForm_codeUnit : ReadsForm codeUnit := by
  intro input
  simp only [codeUnit]
  split
  · split
    · exact .ok _
    · exact .illFormed
  · exact .truncated

theorem readsForm_escapedChar : ReadsForm escapedChar := by
  intro input
  simp only [escapedChar]
  split
  next h => exact (readsForm_codeUnit input).error h
  split
  · exact .illFormed
  split
  · split
    next h => exact (ofForm_expect _ _).error h
    split
    next h => exact (readsForm_codeUnit _).error h
    split
    · exact .ok _
    · exact .illFormed
  · exact .ok _

theorem readsForm_escape {unicode : Reader (List UInt8)} (hunicode : ReadsForm unicode) : ReadsForm (escape unicode) := by
  intro input
  simp only [escape]
  split
  · exact .truncated
  split
  · exact hunicode _
  split
  · exact .ok _
  · exact .illFormed

theorem ofForm_bytesOnto {unicode : Reader (List UInt8)} (hunicode : ReadsForm unicode) (done input : List UInt8) :
    OfForm (bytesOnto unicode done input) := by
  fun_induction bytesOnto unicode done input with
  | case1 => exact .truncated
  | case2 => exact .ok _
  | case3 _ _ input _ _ e h => exact (readsForm_escape hunicode input).error h
  | case4 _ _ _ _ _ _ _ _ ih => exact ih
  | case5 => exact .illFormed
  | case6 _ _ _ _ _ _ ih => exact ih

theorem readsForm_quoted : ReadsForm quoted := by
  intro input
  simp only [quoted, quotedBytes]
  split
  next h => exact (ofForm_bytesOnto (readsForm_escapedChar.map _) [] input).error h
  split
  · exact .ok _
  · exact .illFormed

end Calculator.Json
