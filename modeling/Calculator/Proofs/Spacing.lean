/-
  Calculator.Proofs.Spacing — white space put between the lexemes of a text.

  White space can be put in front of each lexeme and at the end of a text (`Spacing`). That leaves out only the
  places inside a numeral, its sign included, since every other lexeme is a single character. The text is then cut
  into the white space and the lexemes it had, with one exception: a minus behind white space is no sign,
  because only the very character in front of it counts. So a signed numeral with white space in front of it is cut in
  two (`cutFrom_spaced`).

  Main statement: `spacingLaw`. White space changes neither the tokens of a text nor its value, as long as
  none is put in front of a sign. Each sign it is put in front of makes for one token more, which is enough to
  leave an expression without a value (`space_before_sign`).
-/

import Calculator.Proofs.Reading

namespace Calculator

/-! ## Spaced texts -/

namespace Lexeme

def isSigned : Lexeme → Bool
  | numeral negated _ => negated
  | _ => false

/-- What a signed numeral becomes where its minus is no sign. -/
def parted : Lexeme → List Lexeme
  | numeral _ run => [operator .sub, numeral false run]
  | a => [a]

end Lexeme

structure Spaced where
  gap : List Char
  lexeme : Lexeme

namespace Spaced

def text (r : Spaced) : List Char := r.gap ++ r.lexeme.text

def partsSign (r : Spaced) : Bool := !r.gap.isEmpty && r.lexeme.isSigned

def pieces (r : Spaced) : List Lexeme := r.gap.map .blank ++ if r.partsSign then r.lexeme.parted else [r.lexeme]

end Spaced

/-- The text `spaced` comes from `text` by putting white space in front of its lexemes and at its end. -/
structure Spacing (text : List Char) (rows : List Spaced) (spaced : List Char) : Prop where
  cut : IsCut text (rows.map Spaced.lexeme)
  gaps : ∀ r ∈ rows, r.gap.all isBlank = true
  last : ∃ last, last.all isBlank = true ∧ spaced = rows.flatMap Spaced.text ++ last

/-! ## What is cut from them -/

section

variable {c : Char}

theorem isNumeralChar_eq_false_of_isBlank (h : isBlank c = true) : isNumeralChar c = false := by
  cases hc : isNumeralChar c with
  | false => rfl
  | true =>
    rw [isBlank_eq_false_of_isNumeralChar hc] at h
    cases h

theorem operandDue_of_isBlank (h : isBlank c = true) : operandDue (some c) = false := by
  cases hdue : operandDue (some c) with
  | false => rfl
  | true =>
    rcases Bool.or_eq_true_iff.1 hdue with hopening | hoperator
    · rw [eq_of_beq hopening] at h
      cases h
    · obtain ⟨o, rfl⟩ := isOperator_iff.1 hoperator
      cases o <;> cases h

end

namespace Lexeme

variable {before after : Option Char} {gap rest last : List Char} {rows : List Spaced}

/-- A lexeme that is no signed numeral may stand behind white space too. -/
theorem Stands.behind_blank {a : Lexeme} {c : Char} (h : a.Stands before after) (hc : isBlank c = true) (ha : a.isSigned = false) :
    a.Stands (some c) after := by
  cases h with
  | blank h => exact .blank h
  | operator h => exact .operator fun _ => operandDue_of_isBlank hc
  | opening => exact .opening
  | closing => exact .closing
  | @numeral negated run h =>
    cases negated with
    | true => cases ha
    | false =>
      exact .numeral ⟨h.isNumeralChar_of_mem, h.behind, nofun,
        fun _ => ⟨(h.unsigned rfl).1, isNumeralChar_eq_false_of_isBlank hc⟩⟩
  | unknown hblank hchar => exact .unknown hblank hchar

theorem cutFrom_blanks_append (h : ∀ c ∈ gap, isBlank c = true) :
    cutFrom before (gap ++ rest) = gap.map blank ++ cutFrom (gap.getLast?.or before) rest := by
  induction gap generalizing before with
  | nil => rfl
  | cons c gap ih =>
    obtain ⟨hc, hgap⟩ := List.forall_mem_cons.1 h
    have hblank : (blank c).Stands before (gap ++ rest).head? := .blank hc
    rw [getLast?_cons_or, List.cons_append, List.map_cons, List.cons_append, ← ih hgap]
    exact cutFrom_text_append hblank

/-- No numeral is prolonged by white space. -/
theorem head?_spaced (hstand : AllStand before [] (rows.map Spaced.lexeme)) (hgaps : ∀ r ∈ rows, ∀ c ∈ r.gap, isBlank c = true)
    (hlast : ∀ c ∈ last, isBlank c = true)
    (h : ((rows.map Spaced.lexeme).flatMap text ++ []).head?.any isNumeralChar = false) :
    (rows.flatMap Spaced.text ++ last).head?.any isNumeralChar = false := by
  have hblank {gap : List Char} (hgap : ∀ c ∈ gap, isBlank c = true) : gap.head?.any isNumeralChar = false := by
    cases gap with
    | nil => rfl
    | cons c gap => exact isNumeralChar_eq_false_of_isBlank (hgap c List.mem_cons_self)
  cases rows with
  | nil => exact hblank hlast
  | cons r rows =>
    obtain ⟨gap, a⟩ := r
    cases gap with
    | nil =>
      -- the first character is that of the lexeme on both sides
      have hne := hstand.1.text_ne_nil
      have hhead (tail : List Char) : (a.text ++ tail).head? = a.text.head? := by
        rw [List.head?_append, List.head?_eq_some_head hne, Option.some_or]
      rw [List.map_cons, List.flatMap_cons, List.append_assoc, hhead] at h
      rw [List.flatMap_cons, Spaced.text, List.nil_append, List.append_assoc, hhead]
      exact h
    | cons c gap => exact isNumeralChar_eq_false_of_isBlank (hgaps _ List.mem_cons_self c List.mem_cons_self)

/-- Behind white space a minus is an operator, whatever numeral stands behind it. -/
theorem cutFrom_parted {c : Char} {run : List Char} (hc : isBlank c = true) (hne : run ≠ [])
    (hrun : ∀ d ∈ run, isNumeralChar d) (hrest : rest.head?.any isNumeralChar = false) :
    cutFrom (some c) ('-' :: run ++ rest) = [operator .sub, numeral false run] ++ cutFrom run.getLast? rest := by
  rw [List.cons_append, show '-' = Operator.sub.toChar from rfl, cutFrom_operator .sub (operandDue_of_isBlank hc),
    cutFrom_numeral_append hne hrun hrest]
  rfl

/-- A lexeme behind its white space is cut as it was, or in two if it is a signed numeral. -/
theorem cutFrom_spaced_append {r : Spaced} (hstand : r.lexeme.Stands before after) (hgap : ∀ c ∈ r.gap, isBlank c = true)
    (hsign : r.partsSign = true → r.lexeme.text ≠ ['-'])
    (hrest : after.any isNumeralChar = false → rest.head?.any isNumeralChar = false) :
    cutFrom before (r.text ++ rest) = r.pieces ++ cutFrom r.lexeme.text.getLast? rest := by
  obtain ⟨gap, a⟩ := r
  have hafter : ∀ negated run, a = .numeral negated run → rest.head?.any isNumeralChar = false := by
    rintro negated run rfl
    cases hstand with
    | numeral h => exact hrest h.behind
  rw [Spaced.text, Spaced.pieces, List.append_assoc, List.append_assoc, cutFrom_blanks_append hgap]
  congr 1
  rcases List.eq_nil_or_concat' gap with rfl | ⟨front, c, rfl⟩
  · exact cutFrom_text_append (hstand.congr_after hafter)
  have hc : isBlank c = true := hgap c (by simp)
  have hparts : Spaced.partsSign ⟨front ++ [c], a⟩ = a.isSigned := by simp [Spaced.partsSign]
  rw [List.getLast?_concat, Option.some_or, hparts]
  rw [hparts] at hsign
  cases a with
  | numeral negated run =>
    cases negated with
    | false => exact cutFrom_text_append ((hstand.behind_blank hc rfl).congr_after hafter)
    | true =>
      have hne : run ≠ [] := by
        rintro rfl
        exact hsign rfl rfl
      cases hstand with
      | numeral h =>
        rw [show (numeral true run).text.getLast? = run.getLast? from List.getLast?_cons_of_ne_nil hne]
        exact cutFrom_parted hc hne h.isNumeralChar_of_mem (hafter _ _ rfl)
  | blank | operator | opening | closing | unknown =>
    exact cutFrom_text_append ((hstand.behind_blank hc rfl).congr_after hafter)

/-- A spaced text is cut into the pieces of its rows and the white space at its end. -/
theorem cutFrom_spaced (hstand : AllStand before [] (rows.map Spaced.lexeme)) (hgaps : ∀ r ∈ rows, ∀ c ∈ r.gap, isBlank c = true)
    (hlast : ∀ c ∈ last, isBlank c = true) (hsign : ∀ r ∈ rows, r.partsSign = true → r.lexeme.text ≠ ['-']) :
    cutFrom before (rows.flatMap Spaced.text ++ last) = rows.flatMap Spaced.pieces ++ last.map blank := by
  induction rows generalizing before with
  | nil =>
    have hblanks := @cutFrom_blanks_append before last [] hlast
    rwa [List.append_nil, cutFrom, List.append_nil] at hblanks
  | cons r rows ih =>
    obtain ⟨hr, hrows⟩ := hstand
    obtain ⟨hgap, hgaps⟩ := List.forall_mem_cons.1 hgaps
    obtain ⟨hparts, hsign⟩ := List.forall_mem_cons.1 hsign
    rw [List.flatMap_cons, List.flatMap_cons, List.append_assoc, List.append_assoc,
      cutFrom_spaced_append hr hgap hparts (head?_spaced hrows hgaps hlast), ih hrows hgaps hsign]

end Lexeme

/-! ## Their tokens -/

namespace Token

variable {gap : List Char} {as : List Lexeme} {rows : List Spaced} {ts : List Token}

theorem ofLexemes_blanks_append (gap : List Char) (as : List Lexeme) : ofLexemes (gap.map .blank ++ as) = ofLexemes as := by
  induction gap with
  | nil => rfl
  | cons c gap ih =>
    rw [List.map_cons, List.cons_append, ofLexemes_cons_eq, ih]
    show (ofLexemes as).map ([] ++ ·) = ofLexemes as
    cases ofLexemes as <;> rfl

/-- White space that stands in front of no sign is lost on the tokens. -/
theorem ofLexemes_spared (last : List Char) (h : ∀ r ∈ rows, r.partsSign = false) :
    ofLexemes (rows.flatMap Spaced.pieces ++ last.map .blank) = ofLexemes (rows.map Spaced.lexeme) := by
  induction rows with
  | nil =>
    have hblanks := ofLexemes_blanks_append last []
    rwa [List.append_nil] at hblanks
  | cons r rows ih =>
    obtain ⟨hr, hrows⟩ := List.forall_mem_cons.1 h
    rw [List.flatMap_cons, Spaced.pieces, hr, if_neg Bool.false_ne_true, List.append_assoc, List.append_assoc,
      ofLexemes_blanks_append, List.singleton_append, List.map_cons, ofLexemes_cons_eq, ofLexemes_cons_eq, ih hrows]

/-- A numeral that can be read under a sign can be read without it. -/
theorem readNumeral_of_signed {run : List Char} {x : Binary64} (h : readNumeral true run = .ok x) :
    ∃ y, readNumeral false run = .ok y := by
  unfold readNumeral at h ⊢
  split at h
  · next y hy => exact ⟨y, rfl⟩
  · cases h

/-- Each sign that white space stands in front of makes for one token more. -/
theorem exists_ofLexemes_spaced (last : List Char) (h : ofLexemes (rows.map Spaced.lexeme) = .ok ts) :
    ∃ us, ofLexemes (rows.flatMap Spaced.pieces ++ last.map .blank) = .ok us ∧
      us.length = ts.length + rows.countP Spaced.partsSign := by
  induction rows generalizing ts with
  | nil =>
    refine ⟨ts, ?_, rfl⟩
    rw [ofLexemes_spared last (fun _ hr => absurd hr List.not_mem_nil)]
    exact h
  | cons r rows ih =>
    obtain ⟨t, ts, ht, hts, rfl⟩ := ofLexemes_cons.1 h
    obtain ⟨us, hus, hlength⟩ := ih hts
    rw [List.flatMap_cons, Spaced.pieces, List.append_assoc, List.append_assoc, ofLexemes_blanks_append]
    cases hparts : r.partsSign with
    | false =>
      refine ⟨t.toList ++ us, ofLexemes_cons.2 ⟨t, us, ht, hus, rfl⟩, ?_⟩
      rw [List.countP_cons_of_neg (by simp [hparts]), List.length_append, List.length_append, hlength]
      omega
    | true =>
      obtain ⟨-, hsigned⟩ := Bool.and_eq_true_iff.1 hparts
      obtain ⟨gap, a⟩ := r
      cases a with
      | numeral negated run =>
        obtain rfl : negated = true := hsigned
        obtain ⟨x, hx, rfl⟩ := ofLexeme_numeral.1 ht
        obtain ⟨y, hy⟩ := readNumeral_of_signed hx
        refine ⟨.operator .sub :: .number y :: us, ?_, ?_⟩
        · have hnumeral : ofLexemes ([.numeral false run] ++ (rows.flatMap Spaced.pieces ++ last.map .blank)) =
            .ok ([.number y] ++ us) := ofLexemes_append (ofLexemes_numeral hy) hus
          exact ofLexemes_cons.2 ⟨_, _, rfl, hnumeral, rfl⟩
        · rw [List.countP_cons_of_pos hparts, List.length_cons, List.length_cons, hlength]
          show _ = (ts.length + 1) + _
          omega
      | blank | operator | opening | closing | unknown => cases hsigned

/-- No numeral that can be read is a sign by itself. -/
theorem text_ne_sign_of_ofLexeme {a : Lexeme} {t : Option Token} (h : ofLexeme a = .ok t) (hsigned : a.isSigned = true) :
    a.text ≠ ['-'] := by
  cases a with
  | numeral negated run =>
    obtain rfl : negated = true := hsigned
    obtain ⟨x, hx, -⟩ := ofLexeme_numeral.1 h
    simpa [Lexeme.text] using (count_point_of_readNumeral hx).1
  | blank | operator | opening | closing | unknown => cases hsigned

end Token

/-! ## Their value -/

/-- What white space in front of the lexemes and at the end does to a text. -/
structure SpacingLaw (text : List Char) (rows : List Spaced) (spaced : List Char) : Prop where
  /-- In front of no sign it does nothing, to errors either. -/
  spared : (∀ r ∈ rows, r.partsSign = false) → tokenize spaced = tokenize text ∧ evaluate spaced = evaluate text
  parted : ∀ ts, tokenize text = .ok ts →
    ∃ us, tokenize spaced = .ok us ∧ us.length = ts.length + rows.countP Spaced.partsSign
  /-- So just the white space in front of signs has an effect. -/
  tokens : ∀ ts, tokenize text = .ok ts → (tokenize spaced = .ok ts ↔ ∀ r ∈ rows, r.partsSign = false)

theorem spacingLaw {text spaced : List Char} {rows : List Spaced} (h : Spacing text rows spaced) :
    SpacingLaw text rows spaced := by
  obtain ⟨last, hlast, rfl⟩ := h.last
  have hgaps : ∀ r ∈ rows, ∀ c ∈ r.gap, isBlank c = true := fun r hr => List.all_eq_true.1 (h.gaps r hr)
  have htext : tokenize text = Token.ofLexemes (rows.map Spaced.lexeme) := congrArg Token.ofLexemes (isCut_iff.1 h.cut).symm
  have hspaced (hsign : ∀ r ∈ rows, r.partsSign = true → r.lexeme.text ≠ ['-']) :
      tokenize (rows.flatMap Spaced.text ++ last) = Token.ofLexemes (rows.flatMap Spaced.pieces ++ last.map .blank) := by
    rw [tokenize, Lexeme.cut_eq_cutFrom, Lexeme.cutFrom_spaced h.cut.allStand hgaps (List.all_eq_true.1 hlast) hsign]
    rfl
  have spared (hspare : ∀ r ∈ rows, r.partsSign = false) : tokenize (rows.flatMap Spaced.text ++ last) = tokenize text := by
    have hsign : ∀ r ∈ rows, r.partsSign = true → r.lexeme.text ≠ ['-'] := by
      intro r hr hparts
      rw [hspare r hr] at hparts
      cases hparts
    rw [hspaced hsign, htext, Token.ofLexemes_spared last hspare]
  have parted (ts : List Token) (hts : tokenize text = .ok ts) :
      ∃ us, tokenize (rows.flatMap Spaced.text ++ last) = .ok us ∧ us.length = ts.length + rows.countP Spaced.partsSign := by
    rw [htext] at hts
    rw [hspaced]
    · exact Token.exists_ofLexemes_spaced last hts
    · intro r hr hparts
      obtain ⟨t, ht⟩ := Token.exists_ofLexeme_of_mem hts r.lexeme (List.mem_map_of_mem hr)
      exact Token.text_ne_sign_of_ofLexeme ht (Bool.and_eq_true_iff.1 hparts).2
  refine ⟨fun hspare => ⟨spared hspare, ?_⟩, parted, fun ts hts => ⟨fun hsame => ?_, fun hspare => ?_⟩⟩
  · rw [evaluate, spared hspare]
    rfl
  · obtain ⟨us, hus, hlength⟩ := parted ts hts
    rw [hsame] at hus
    cases hus
    have hcount : rows.countP Spaced.partsSign = 0 := by omega
    intro r hr
    simpa using List.countP_eq_zero.1 hcount r hr
  · rw [spared hspare, hts]

/-- White space at the start, in front of an operator and at the end. -/
theorem spacingLaw_product :
    ∃ rows, Spacing "2*-3".toList rows " 2  *-3 ".toList ∧ SpacingLaw "2*-3".toList rows " 2  *-3 ".toList ∧
      ∀ r ∈ rows, r.partsSign = false := by
  let rows : List Spaced := [⟨[' '], .numeral false ['2']⟩, ⟨[' ', ' '], .operator .mul⟩, ⟨[], .numeral true ['3']⟩]
  have h : Spacing "2*-3".toList rows " 2  *-3 ".toList := {
    cut := isCut_iff.2 (by decide +kernel)
    gaps := by decide +kernel
    last := ⟨[' '], by decide +kernel, by decide +kernel⟩
  }
  exact ⟨rows, h, spacingLaw h, by decide +kernel⟩

/-- White space in front of a sign, and the product has no value any more. -/
theorem space_before_sign :
    ∃ rows, Spacing "2*-3".toList rows "2 * -3".toList ∧
      tokenize "2*-3".toList = .ok [.number (.ofNat 2), .operator .mul, .number (-.ofNat 3)] ∧
      tokenize "2 * -3".toList ≠ tokenize "2*-3".toList ∧
      evaluate "2*-3".toList = .ok (-.ofNat 6) ∧ evaluate "2 * -3".toList = .error .malformed := by
  let rows : List Spaced := [⟨[], .numeral false ['2']⟩, ⟨[' '], .operator .mul⟩, ⟨[' '], .numeral true ['3']⟩]
  have h : Spacing "2*-3".toList rows "2 * -3".toList := {
    cut := isCut_iff.2 (by decide +kernel)
    gaps := by decide +kernel
    last := ⟨[], by decide +kernel, by decide +kernel⟩
  }
  have hproduct : tokenize "2*-3".toList = .ok [.number (.ofNat 2), .operator .mul, .number (-.ofNat 3)] := by decide +kernel
  have hspaced : tokenize "2 * -3".toList = .ok [.number (.ofNat 2), .operator .mul, .operator .sub, .number (.ofNat 3)] := by
    decide +kernel
  refine ⟨rows, h, hproduct, ?_, by decide +kernel, by decide +kernel⟩
  rw [hproduct, hspaced]
  intro hsame
  cases hsame

end Calculator
