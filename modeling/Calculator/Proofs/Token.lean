/-
  Calculator.Proofs.Token — the tokens of a list of lexemes, one lexeme at a time.

  A list of lexemes has tokens exactly when each lexeme can be read, and they are then the
  tokens of the single lexemes in order (`ofLexemes_cons`, `ofLexemes_append`). Otherwise the first
  lexeme that cannot be read decides the error (`exists_of_ofLexemes_eq_error`). Of a literal the
  token is the double it spells (`readNumeral_text`).
-/

import Calculator.Proofs.Phrase

namespace Calculator

namespace Decimal

/-- A run is no decimal if it has no digit or two points. -/
theorem ofRun?_eq_none_iff {run : List Char} : ofRun? run = none ↔ run = [] ∨ run = ['.'] ∨ 2 ≤ run.count '.' := by
  unfold ofRun?
  by_cases hpoint : '.' ∈ run
  · obtain ⟨whole, fraction, rfl, hwhole⟩ := List.eq_append_cons_of_mem hpoint
    have hrun : ∀ c ∈ whole, (c != '.') = true := fun c hc => bne_iff_ne.2 fun e => hwhole (e ▸ hc)
    have hcount : 2 ≤ (whole ++ '.' :: fraction).count '.' ↔ '.' ∈ fraction := by
      rw [List.count_append, List.count_eq_zero.2 hwhole, List.count_cons_self, ← List.count_pos_iff]
      omega
    rw [takeWhile_run_append hrun rfl, dropWhile_run_append hrun rfl, hcount]
    by_cases hfraction : '.' ∈ fraction
    · simp [hfraction]
    · simp [hfraction, List.append_eq_singleton_iff]
  · have hrun : ∀ c ∈ run, (c != '.') = true := fun c hc => bne_iff_ne.2 fun e => hpoint (e ▸ hc)
    have hcount : run.count '.' = 0 := List.count_eq_zero.2 hpoint
    have hne : run ≠ ['.'] := by
      rintro rfl
      simp at hpoint
    have ht := @takeWhile_run_append _ _ [] hrun rfl
    have hd := @dropWhile_run_append _ _ [] hrun rfl
    rw [List.append_nil] at ht hd
    rw [ht, hd, hcount]
    simp [hne]

/-- A run that is a decimal has a digit, and one point at most. -/
theorem of_ofRun?_eq_some {run : List Char} {d : Decimal} (h : ofRun? run = some d) :
    run ≠ [] ∧ run ≠ ['.'] ∧ run.count '.' ≤ 1 := by
  have hno : ¬ (run = [] ∨ run = ['.'] ∨ 2 ≤ run.count '.') := by
    rw [← ofRun?_eq_none_iff, h]
    exact Option.some_ne_none d
  rw [not_or, not_or] at hno
  exact ⟨hno.1, hno.2.1, Nat.le_of_not_lt hno.2.2⟩

end Decimal

namespace Token

def ofLexemes (lexemes : List Lexeme) : Except EvalError (List Token) := lexemes.filterMapM ofLexeme

/-- Lexemes are read one after the other. -/
theorem ofLexemes_cons_eq (a : Lexeme) (as : List Lexeme) :
    ofLexemes (a :: as) = ofLexeme a >>= fun t => (ofLexemes as).map (t.toList ++ ·) := by
  rw [ofLexemes, List.filterMapM_cons, ← ofLexemes]
  cases ofLexeme a with
  | error e => rfl
  | ok t =>
    cases t with
    | none =>
      show ofLexemes as = (ofLexemes as).map ([] ++ ·)
      cases ofLexemes as <;> rfl
    | some t =>
      show (ofLexemes as >>= fun ts => pure (t :: ts)) = (ofLexemes as).map ([t] ++ ·)
      cases ofLexemes as <;> rfl

theorem ofLexemes_append_eq (as bs : List Lexeme) :
    ofLexemes (as ++ bs) = ofLexemes as >>= fun ts => (ofLexemes bs).map (ts ++ ·) := by
  induction as with
  | nil =>
    show ofLexemes bs = (ofLexemes bs).map ([] ++ ·)
    cases ofLexemes bs <;> rfl
  | cons a as ih =>
    rw [List.cons_append, ofLexemes_cons_eq, ofLexemes_cons_eq, ih]
    cases ofLexeme a with
    | error e => rfl
    | ok t =>
      cases ofLexemes as with
      | error e => rfl
      | ok ts =>
        cases ofLexemes bs with
        | error e => rfl
        | ok us => exact congrArg Except.ok (List.append_assoc ..).symm

theorem ofLexemes_cons {a : Lexeme} {as : List Lexeme} {ts : List Token} :
    ofLexemes (a :: as) = .ok ts ↔ ∃ t us, ofLexeme a = .ok t ∧ ofLexemes as = .ok us ∧ ts = t.toList ++ us := by
  rw [ofLexemes_cons_eq]
  constructor
  · intro h
    cases ha : ofLexeme a with
    | error e => rw [ha] at h; cases h
    | ok t =>
      cases hs : ofLexemes as with
      | error e => rw [ha, hs] at h; cases h
      | ok us =>
        rw [ha, hs] at h
        cases h
        exact ⟨t, us, rfl, rfl, rfl⟩
  · intro h
    obtain ⟨t, us, ha, hs, rfl⟩ := h
    rw [ha, hs]
    rfl

theorem ofLexeme_numeral {negated : Bool} {run : List Char} {t : Option Token} :
    ofLexeme (.numeral negated run) = .ok t ↔ ∃ x, readNumeral negated run = .ok x ∧ t = some (number x) := by
  rw [ofLexeme]
  cases readNumeral negated run with
  | error e =>
    constructor
    · intro h
      cases h
    · intro h
      obtain ⟨_, h, -⟩ := h
      cases h
  | ok x =>
    constructor
    · intro h
      cases h
      exact ⟨x, rfl, rfl⟩
    · intro h
      obtain ⟨_, h, rfl⟩ := h
      cases h
      rfl

theorem ofLexemes_numeral {negated : Bool} {run : List Char} {x : Binary64} (h : readNumeral negated run = .ok x) :
    ofLexemes [.numeral negated run] = .ok [number x] :=
  ofLexemes_cons.2 ⟨some (number x), [], ofLexeme_numeral.2 ⟨x, h, rfl⟩, rfl, rfl⟩

theorem ofLexemes_append {as bs : List Lexeme} {ts us : List Token} (ha : ofLexemes as = .ok ts) (hb : ofLexemes bs = .ok us) :
    ofLexemes (as ++ bs) = .ok (ts ++ us) := by
  rw [ofLexemes_append_eq, ha, hb]
  rfl

/-- Behind lexemes that can be read, one that cannot decides the error. -/
theorem ofLexemes_eq_error {as bs : List Lexeme} {a : Lexeme} {ts : List Token} {e : EvalError} (has : ofLexemes as = .ok ts)
    (ha : ofLexeme a = .error e) : ofLexemes (as ++ a :: bs) = .error e := by
  rw [ofLexemes_append_eq, has, ofLexemes_cons_eq, ha]
  rfl

/-- The error comes from the first lexeme that cannot be read. -/
theorem exists_of_ofLexemes_eq_error {as : List Lexeme} {e : EvalError} (h : ofLexemes as = .error e) :
    ∃ pre a post ts, as = pre ++ a :: post ∧ ofLexemes pre = .ok ts ∧ ofLexeme a = .error e := by
  induction as with
  | nil => cases h
  | cons a as ih =>
    rw [ofLexemes_cons_eq] at h
    cases ha : ofLexeme a with
    | error e' =>
      rw [ha] at h
      cases h
      exact ⟨[], a, as, [], rfl, rfl, ha⟩
    | ok t =>
      cases hs : ofLexemes as with
      | ok ts =>
        rw [ha, hs] at h
        cases h
      | error e' =>
        rw [ha, hs] at h
        cases h
        obtain ⟨pre, b, post, ts, rfl, hpre, hb⟩ := ih hs
        exact ⟨a :: pre, b, post, t.toList ++ ts, rfl, ofLexemes_cons.2 ⟨t, ts, ha, hpre, rfl⟩, hb⟩

/-- Lexemes of which each can be read have tokens. -/
theorem exists_ofLexemes {as : List Lexeme} (h : ∀ a ∈ as, ∃ t, ofLexeme a = .ok t) : ∃ ts, ofLexemes as = .ok ts := by
  cases hs : ofLexemes as with
  | ok ts => exact ⟨ts, rfl⟩
  | error e =>
    obtain ⟨pre, a, post, -, rfl, -, ha⟩ := exists_of_ofLexemes_eq_error hs
    obtain ⟨t, ht⟩ := h a (List.mem_append_right _ List.mem_cons_self)
    rw [ha] at ht
    cases ht

/-- Every lexeme of a list with tokens can be read. -/
theorem exists_ofLexeme_of_mem {as : List Lexeme} {ts : List Token} (h : ofLexemes as = .ok ts) :
    ∀ a ∈ as, ∃ t, ofLexeme a = .ok t := by
  induction as generalizing ts with
  | nil => nofun
  | cons a as ih =>
    obtain ⟨t, us, ht, hs, rfl⟩ := ofLexemes_cons.1 h
    intro b hb
    rcases List.mem_cons.1 hb with rfl | hb
    · exact ⟨t, ht⟩
    · exact ih hs b hb

/-- What can be read as a number holds some character, and one point at most. -/
theorem count_point_of_readNumeral {negated : Bool} {run : List Char} {x : Binary64} (h : readNumeral negated run = .ok x) :
    run ≠ [] ∧ run.count '.' ≤ 1 := by
  cases hd : Decimal.ofRun? run with
  | none =>
    rw [readNumeral, Binary64.ofRun?, hd] at h
    cases h
  | some d =>
    obtain ⟨hne, -, hcount⟩ := Decimal.of_ofRun?_eq_some hd
    exact ⟨hne, hcount⟩

end Token

/-! ## Literals -/

namespace Literal

def toBinary64 (l : Literal) : Binary64 := Decimal.toBinary64 ⟨l.whole, l.fraction.getD []⟩

theorem decimalOfRun?_text (l : Literal) : Decimal.ofRun? l.text = some ⟨l.whole, l.fraction.getD []⟩ := by
  have hw : ∀ c ∈ l.whole, (c != '.') = true := fun c hc => bne_iff_ne.2 (ne_of_isDigit (l.isDigit_of_mem_whole c hc)).1
  unfold Decimal.ofRun? text
  cases h : l.fraction with
  | none =>
    have ht := @takeWhile_run_append _ _ [] hw rfl
    have hd := @dropWhile_run_append _ _ [] hw rfl
    rw [List.append_nil] at ht hd
    simp [ht, hd, l.whole_ne_nil]
  | some digits =>
    have hd : '.' ∉ digits := fun hm => by
      have := l.isDigit_of_mem_fraction digits h '.' hm
      simp at this
    simp [takeWhile_run_append hw, dropWhile_run_append hw, l.whole_ne_nil, hd]

theorem count_point_text_le (l : Literal) : l.text.count '.' ≤ 1 := (Decimal.of_ofRun?_eq_some l.decimalOfRun?_text).2.2

theorem binary64OfRun?_text {l : Literal} (h : l.toBinary64.isFinite) : Binary64.ofRun? l.text = some l.toBinary64 := by
  rw [Binary64.ofRun?, l.decimalOfRun?_text]
  exact Option.filter_eq_some_iff.2 ⟨rfl, h⟩

/-- A literal whose double is finite is read as that double. -/
theorem readNumeral_text {l : Literal} (h : l.toBinary64.isFinite) : Token.readNumeral false l.text = .ok l.toBinary64 := by
  simp only [Token.readNumeral, binary64OfRun?_text h, Bool.false_eq_true, if_false]

/-- Under a sign it is read as the double's negation. -/
theorem readNumeral_sign_text {l : Literal} (h : l.toBinary64.isFinite) :
    Token.readNumeral true l.text = .ok (-l.toBinary64) := by
  simp only [Token.readNumeral, binary64OfRun?_text h, if_true]

/-- A literal that can be read spells a finite double. -/
theorem isFinite_of_readNumeral {l : Literal} {negated : Bool} {v : Binary64} (h : Token.readNumeral negated l.text = .ok v) :
    l.toBinary64.isFinite = true := by
  cases hfinite : l.toBinary64.isFinite with
  | true => rfl
  | false =>
    have hnone : Binary64.ofRun? l.text = none := by
      rw [Binary64.ofRun?, l.decimalOfRun?_text]
      exact Option.filter_eq_none_iff.2 fun _ hx => Option.some.inj hx ▸ Bool.eq_false_iff.1 hfinite
    rw [Token.readNumeral, hnone] at h
    cases h

end Literal

end Calculator
