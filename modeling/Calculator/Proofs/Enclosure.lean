/-
  Calculator.Proofs.Enclosure — parentheses around a whole text.

  They change nothing, errors included (`calculate_enclosed`), even where the text is no expression.
  Cutting goes by whether an operand is due, which it is both at the start and behind the parenthesis
  that opens (`cut_enclosed`). The tokens of a text nest as its parentheses do, and a machine that
  reads tokens that nest never looks below the parentheses that were open before (`run_above`); so the
  added one stays at the bottom until the last token. What that one applies is what the end would.
-/

import Calculator.Proofs.Meaning

namespace Calculator

/-! ## Tokens that nest -/

/-- With `depth` parentheses open in front of them, the tokens close them and their own, and close
none before it is opened. -/
def Token.Nested : Nat → List Token → Prop
  | depth, [] => depth = 0
  | depth, .opening :: ts => Token.Nested (depth + 1) ts
  | depth, .closing :: ts => ∃ outer, depth = outer + 1 ∧ Token.Nested outer ts
  | depth, .number _ :: ts | depth, .operator _ :: ts => Token.Nested depth ts

theorem nested_single {depth : Nat} {c : Char} {rest : List Char} {t : Option Token} {ts : List Token}
    (ht : Token.ofLexeme (Lexeme.single c) = .ok t) (hn : Nested depth (c :: rest))
    (ih : ∀ {d}, Nested d rest → Token.Nested d ts) : Token.Nested depth (t.toList ++ ts) := by
  unfold Lexeme.single at ht
  split at ht
  · next hb =>
    cases ht
    have ho : c ≠ '(' := fun e => by subst e; cases hb
    have hc : c ≠ ')' := fun e => by subst e; cases hb
    exact ih ((nested_cons_of_ne ho hc).1 hn)
  split at ht
  · next ho =>
    cases ht
    subst ho
    exact ih hn
  split at ht
  · next hc =>
    cases ht
    subst hc
    obtain ⟨outer, rfl, hn⟩ := hn
    exact ⟨outer, rfl, ih hn⟩
  · next ho hc =>
    have hrest := (nested_cons_of_ne ho hc).1 hn
    split at ht
    · cases ht
      exact ih hrest
    · cases ht

/-- The tokens of a text nest as its parentheses do. -/
theorem nested_of_ofLexemes (before : Option Char) (text : List Char) :
    ∀ {depth : Nat} {ts : List Token}, Nested depth text → Token.ofLexemes (Lexeme.cutFrom before text) = .ok ts →
      Token.Nested depth ts := by
  fun_induction Lexeme.cutFrom before text with
  | case1 =>
    intro depth ts hn ht
    cases ht
    exact hn
  | @case2 before c rest step ih =>
    intro depth ts hn ht
    obtain ⟨t, us, ha, hs, rfl⟩ := Token.ofLexemes_cons.1 ht
    have hrun := @nested_run_append depth _ (rest.dropWhile isNumeralChar) (@of_mem_takeWhile _ rest)
    rw [List.takeWhile_append_dropWhile] at hrun
    rcases Lexeme.next_cases before c rest with ⟨hc, hnext⟩ | ⟨rfl, -, hnext⟩ | ⟨-, -, hnext⟩
    · simp only [step, hnext] at ih ha hs
      obtain ⟨x, -, rfl⟩ := Token.ofLexeme_numeral.1 ha
      have h1 := @nested_run_append depth [c] rest (by simpa using hc)
      show Token.Nested depth us
      exact ih (hrun.1 (h1.1 hn)) hs
    · simp only [step, hnext] at ih ha hs
      obtain ⟨x, -, rfl⟩ := Token.ofLexeme_numeral.1 ha
      show Token.Nested depth us
      exact ih (hrun.1 hn) hs
    · simp only [step, hnext] at ih ha hs
      exact nested_single ha hn fun h => ih h hs

/-! ## What lies below -/

namespace Machine

def above (k : Machine) (outer : List Pending) : Machine := { k with pending := k.pending ++ outer }

def openings (k : Machine) : Nat := k.pending.count .opening

variable {outer : List Pending}

theorem unwind_above (due : Operator → Bool) (operands : List Binary64) (pending : List Pending) :
    unwind due operands (pending ++ .opening :: outer) = (unwind due operands pending).map (above · (.opening :: outer)) := by
  induction pending generalizing operands with
  | nil => rfl
  | cons top pending ih =>
    cases top with
    | opening => rfl
    | operator o =>
      rw [List.cons_append]
      unfold unwind
      split
      · split
        · split
          · exact ih _
          · rfl
        · rfl
      · rfl

theorem openings_unwind {due : Operator → Bool} {k m : Machine} (h : unwind due k.operands k.pending = .ok m) :
    m.openings = k.openings := by
  refine (unwind_invariant (P := fun m => m.openings = k.openings) h ?_ rfl).1
  intro k' o x y value _ hk'
  rw [← hk']
  exact (List.count_cons_of_ne (by simp)).symm

/-- Where all operators are due, only parentheses stay. -/
theorem head?_pending_unwind {k m : Machine} (h : unwind (fun _ => true) k.operands k.pending = .ok m) :
    m.pending = [] ∨ ∃ rest, m.pending = .opening :: rest := by
  cases hpending : m.pending with
  | nil => exact .inl rfl
  | cons top rest =>
    cases top with
    | opening => exact .inr ⟨rest, rfl⟩
    | operator o => exact absurd rfl (not_due_of_unwind h (by rw [hpending]; rfl))

theorem settle_above (r : Nat) (k : Machine) :
    (k.above (.opening :: outer)).settle r = (k.settle r).map (above · (.opening :: outer)) := unwind_above ..

theorem openings_settle {r : Nat} {k m : Machine} (h : k.settle r = .ok m) : m.openings = k.openings := openings_unwind h

/-- An open parenthesis is on top once all operators are applied. -/
theorem exists_pending_settle {k m : Machine} (h : k.settle 1 = .ok m) (ho : 0 < k.openings) :
    ∃ rest, m.pending = .opening :: rest := by
  have hm := openings_settle h
  rw [settle, one_le_rank] at h
  rcases head?_pending_unwind h with hnil | hrest
  · have : m.openings = 0 := by rw [openings, hnil]; rfl
    omega
  · exact hrest

/-- What a step does to the parentheses that are open. -/
theorem nested_step {k m : Machine} {t : Token} {ts : List Token} (h : k.step t = .ok m) (hn : Token.Nested k.openings (t :: ts)) :
    Token.Nested m.openings ts := by
  cases t with
  | number x =>
    cases h
    exact hn
  | opening =>
    cases h
    show Token.Nested ((Pending.opening :: k.pending).count .opening) ts
    rw [List.count_cons_self]
    exact hn
  | operator o =>
    rw [step_operator] at h
    obtain ⟨m', hm, hk⟩ := bind_eq_ok.1 h
    cases hk
    have : (m'.await o).openings = m'.openings := List.count_cons_of_ne (by simp)
    rw [this, openings_settle hm]
    exact hn
  | closing =>
    obtain ⟨outer, ho, hn⟩ := hn
    rw [step_closing] at h
    obtain ⟨m', hm, hk⟩ := bind_eq_ok.1 h
    obtain ⟨rest, hrest⟩ := exists_pending_settle hm (by omega)
    have hm := openings_settle hm
    rw [close, hrest] at hk
    cases hk
    have : m'.openings = rest.count .opening + 1 := by rw [openings, hrest, List.count_cons_self]
    show Token.Nested (rest.count .opening) ts
    rwa [show rest.count .opening = outer by omega]

theorem step_above {k : Machine} {t : Token} {ts : List Token} (hn : Token.Nested k.openings (t :: ts)) :
    (k.above (.opening :: outer)).step t = (k.step t).map (above · (.opening :: outer)) := by
  cases t with
  | number x => rfl
  | opening => rfl
  | operator o =>
    rw [step_operator, step_operator, settle_above]
    cases k.settle o.rank <;> rfl
  | closing =>
    obtain ⟨depth, ho, -⟩ := hn
    rw [step_closing, step_closing, settle_above]
    cases hm : k.settle 1 with
    | error e => rfl
    | ok m =>
      obtain ⟨rest, hrest⟩ := exists_pending_settle hm (by omega)
      show close (m.above _) = (close m).map _
      simp only [close, above, hrest, List.cons_append]
      rfl

/-- Tokens that nest never look below the parentheses that are open. -/
theorem run_above {k : Machine} {ts : List Token} (hn : Token.Nested k.openings ts) :
    (k.above (.opening :: outer)).run ts = (k.run ts).map (above · (.opening :: outer)) := by
  induction ts generalizing k with
  | nil => rfl
  | cons t ts ih =>
    rw [run_cons, run_cons, step_above hn]
    cases hm : k.step t with
    | error e => rfl
    | ok m => exact ih (nested_step hm hn)

/-- They close all of them. -/
theorem openings_run {k m : Machine} {ts : List Token} (hn : Token.Nested k.openings ts) (h : k.run ts = .ok m) : m.openings = 0 := by
  induction ts generalizing k with
  | nil =>
    cases h
    exact hn
  | cons t ts ih =>
    rw [run_cons] at h
    obtain ⟨k', hk', h⟩ := bind_eq_ok.1 h
    exact ih (nested_step hk' hn) h

theorem pending_settle_eq_nil {k m : Machine} (h : k.settle 1 = .ok m) (ho : k.openings = 0) : m.pending = [] := by
  have hm := openings_settle h
  rw [settle, one_le_rank] at h
  rcases head?_pending_unwind h with hnil | ⟨rest, hrest⟩
  · exact hnil
  · rw [openings, hrest, List.count_cons_self] at hm
    omega

/-- Parentheses around tokens that nest change nothing, errors included. -/
theorem evaluateTokens_enclosed {ts : List Token} (hn : Token.Nested 0 ts) :
    evaluateTokens (.opening :: ts ++ [.closing]) = evaluateTokens ts := by
  have hrun : (empty.above [.opening]).run ts = (empty.run ts).map (above · [.opening]) := run_above hn
  calc evaluateTokens (.opening :: ts ++ [.closing])
    _ = (empty.above [.opening]).run ts >>= fun k => (k.settle 1 >>= close) >>= fun k => k.settle 1 >>= only := by
      simp only [evaluateTokens, List.cons_append, run_cons, run_append, bind_assoc, step_closing, funext finish_eq]
      rfl
    _ = empty.run ts >>= fun k => k.settle 1 >>= only := by
      rw [hrun]
      cases hk : empty.run ts with
      | error e => rfl
      | ok k =>
        have ho := @openings_run empty _ _ hn hk
        show ((k.above [.opening]).settle 1 >>= close) >>= (fun k => k.settle 1 >>= only) = k.settle 1 >>= only
        rw [settle_above]
        cases hm : k.settle 1 with
        | error e => rfl
        | ok m =>
          have hnil := pending_settle_eq_nil hm ho
          obtain ⟨operands, pending⟩ := m
          subst hnil
          rfl
    _ = evaluateTokens ts := by simp only [evaluateTokens, funext finish_eq]

end Machine

/-! ## Texts -/

/-- At the start of a text a character is asked no less than behind another one. -/
theorem Fits.of_none_before {before after : Option Char} {c : Char} (h : Fits none c after) : Fits before c after :=
  ⟨h.alphabet, fun hc => absurd (h.point hc).1 (by simp), fun hc => absurd (h.operator hc) (by simp)⟩

/-- Nor is it at the end. -/
theorem Fits.of_none_after {before after : Option Char} {c : Char} (h : Fits before c none) : Fits before c after :=
  ⟨h.alphabet, fun hc => absurd (h.point hc).2 (by simp), h.operator⟩

theorem everywhere_fits_of_none {before : Option Char} {text : List Char} (h : Everywhere Fits none text) :
    Everywhere Fits before text := by
  cases text with
  | nil => trivial
  | cons c rest => exact ⟨h.1.of_none_before, h.2⟩

theorem everywhere_fits_append_closing {before : Option Char} {text : List Char} (h : Everywhere Fits before text) :
    Everywhere Fits before (text ++ [')']) := by
  induction text generalizing before with
  | nil => exact ⟨.of_closing, trivial⟩
  | cons c rest ih =>
    refine ⟨?_, ih h.2⟩
    cases rest with
    | nil => exact h.1.of_none_after
    | cons d rest => exact h.1

theorem nested_append_closing {depth : Nat} {text : List Char} (h : Nested depth text) : Nested (depth + 1) (text ++ [')']) := by
  induction text generalizing depth with
  | nil =>
    obtain rfl : depth = 0 := h
    exact ⟨0, rfl, rfl⟩
  | cons c rest ih =>
    rw [List.cons_append]
    unfold Nested at h ⊢
    split
    · next ho =>
      rw [if_pos ho] at h
      exact ih h
    next ho =>
    rw [if_neg ho] at h
    split
    · next hc =>
      rw [if_pos hc] at h
      obtain ⟨outer, rfl, h⟩ := h
      exact ⟨outer + 1, rfl, ih h⟩
    · next hc =>
      rw [if_neg hc] at h
      exact ih h

theorem isWellFormed_enclosed {text : List Char} (h : isWellFormed text = true) : isWellFormed ('(' :: text ++ [')']) = true := by
  obtain ⟨hfits, hnested, -⟩ := isWellFormed_iff.1 h
  refine isWellFormed_iff.2 ⟨⟨.of_opening, ?_⟩, nested_append_closing hnested, ?_⟩
  · exact everywhere_fits_append_closing (everywhere_fits_of_none hfits)
  · rw [List.getLast?_concat]
    rfl

theorem cut_enclosed (text : List Char) : Lexeme.cut ('(' :: text ++ [')']) = .opening :: Lexeme.cut text ++ [.closing] := by
  rw [Lexeme.cut_eq_cutFrom, Lexeme.cut_eq_cutFrom, List.cons_append, Lexeme.cutFrom_opening, Lexeme.cutFrom_append rfl,
    Lexeme.cutFrom_closing, @Lexeme.cutFrom_congr (some '(') text none rfl, Lexeme.cutFrom]
  rfl

theorem tokenize_enclosed (text : List Char) :
    tokenize ('(' :: text ++ [')']) = (tokenize text).map fun ts => .opening :: ts ++ [.closing] := by
  show Token.ofLexemes _ = (Token.ofLexemes _).map _
  rw [cut_enclosed, List.cons_append, Token.ofLexemes_cons_eq, Token.ofLexemes_append_eq]
  cases Token.ofLexemes (Lexeme.cut text) <;> rfl

/-- Parentheses around a text of the right form change nothing: it keeps its form, and it comes to the same
double or the same error. -/
theorem calculate_enclosed (text : List Char) (h : isWellFormed text = true) :
    isWellFormed ('(' :: text ++ [')']) = true ∧ calculate ('(' :: text ++ [')']) = calculate text := by
  have hform := isWellFormed_enclosed h
  refine ⟨hform, ?_⟩
  rw [calculate, calculate, if_pos hform, if_pos h, evaluate, evaluate, tokenize_enclosed]
  cases ht : tokenize text with
  | error e => rfl
  | ok ts =>
    rw [tokenize, Lexeme.cut_eq_cutFrom] at ht
    have hn := nested_of_ofLexemes none text (isWellFormed_iff.1 h).2.1 ht
    exact Machine.evaluateTokens_enclosed hn

/-- So also around an operator that takes its operand from outside its own parentheses. -/
theorem calculate_enclosed_dangling :
    isWellFormed "2(3+)".toList = true ∧ isWellFormed "(2(3+))".toList = true ∧
      calculate "(2(3+))".toList = .ok (.ofNat 5) := by
  have h : isWellFormed "2(3+)".toList = true := by decide
  have hc : calculate "2(3+)".toList = .ok (.ofNat 5) := eq_ok_of_toOption (by decide +kernel)
  obtain ⟨hform, he⟩ := calculate_enclosed _ h
  exact ⟨h, hform, he.trans hc⟩

end Calculator
