/-
  Calculator.Proofs.Json.Value — values are read as they are written.

  A walk over values reads the grammar if its readers of numbers, strings and names do; that is an
  induction on how deep it may go, with one case for each kind of value (`reads_value`). Both
  walks are instances (`reads_building`, `reads_skipping`), and so a JSON text is what `ofBytes`
  reads (`ofBytes_eq_ok_iff`). Nothing that is no JSON is refused for its shape (`ofForm_ofBytes`).
-/

import Calculator.Proofs.Json.Denotation
import Calculator.Proofs.Json.Number

namespace Calculator.Json

open Reader

variable {α β : Type} {input rest tail : List UInt8} {b : UInt8} {w : Writing}

/-! ## How values start -/

namespace Writing

def Starts : Writing → Char → Prop
  | null, c => c = 'n'
  | bool true, c => c = 't'
  | bool false, c => c = 'f'
  | number _, c => c = '-' ∨ c.isDigit
  | text _, c => c = '"'
  | array _, c => c = '['
  | object _, c => c = '\x7b'

theorem not_isWhitespace_of_number {c : Char} (h : c = '-' ∨ c.isDigit) : c.isWhitespace = false := by
  cases hc : c.isWhitespace with
  | false => rfl
  | true =>
    simp only [Char.isWhitespace, Bool.or_eq_true, decide_eq_true_eq] at hc
    rcases hc with ((rfl | rfl) | rfl) | rfl <;> rcases h with h | h <;> cases h

/-- The character is no blank, and closes no array. -/
theorem Starts.ne {c : Char} (h : w.Starts c) : c.isWhitespace = false ∧ c ≠ ']' := by
  cases w with
  | null =>
    cases h
    decide
  | bool b =>
    cases b <;> cases h <;> decide
  | number n =>
    refine ⟨not_isWhitespace_of_number h, fun hc => ?_⟩
    subst hc
    rcases h with h | h <;> cases h
  | text ps =>
    cases h
    decide
  | array items =>
    cases h
    decide
  | object members =>
    cases h
    decide

theorem exists_start (h : w.Written input rest) : ∃ b tail, skipBlanks input = b :: tail ∧ w.Starts (Char.ofUInt8 b) := by
  have start {b : UInt8} {tail : List UInt8} (hblanks : Blanks input (b :: tail)) (hb : w.Starts (Char.ofUInt8 b)) :
      ∃ b tail, skipBlanks input = b :: tail ∧ w.Starts (Char.ofUInt8 b) :=
    ⟨b, tail, skipBlanks_eq_cons hblanks hb.ne.1, hb⟩
  cases h with
  | null hblanks => exact start hblanks rfl
  | yes hblanks => exact start hblanks rfl
  | no hblanks => exact start hblanks rfl
  | number hblanks hn =>
    obtain ⟨b, tail, rfl, hb⟩ := hn.head
    exact start hblanks hb
  | text hblanks _ => exact start hblanks rfl
  | array hblanks _ => exact start hblanks rfl
  | object hblanks _ => exact start hblanks rfl

end Writing

/-! ## One walk over the values -/

section

variable {s : Scheme α} {m : Sense α}

def Scheme.nested (s : Scheme α) : Nat → Option (Unit → Reader α)
  | 0 => none
  | depth + 1 => some fun _ => s.value depth

theorem read_value_eq (s : Scheme α) (depth : Nat) (h : skipBlanks input = b :: tail) :
    (s.value depth).read input = s.behind (s.nested depth) b tail := by
  cases depth with
  | zero => simp only [Scheme.value, Scheme.valueWith, Scheme.nested, h]
  | succ depth => simp only [Scheme.value, Scheme.valueWith, Scheme.nested, h]

theorem read_value_eq_nil (s : Scheme α) (depth : Nat) (h : skipBlanks input = []) :
    (s.value depth).read input = .error .truncated := by
  cases depth with
  | zero => simp only [Scheme.value, Scheme.valueWith, h]
  | succ depth => simp only [Scheme.value, Scheme.valueWith, h]

theorem behind_number (nested : Option (Unit → Reader α)) (hb : Char.ofUInt8 b = '-' ∨ (Char.ofUInt8 b).isDigit) :
    s.behind nested b tail = s.number.read (b :: tail) := by
  unfold Scheme.behind
  split
  next h => rw [h] at hb; rcases hb with hb | hb <;> cases hb
  next h => rw [h] at hb; rcases hb with hb | hb <;> cases hb
  next h => rw [h] at hb; rcases hb with hb | hb <;> cases hb
  next h => rw [h] at hb; rcases hb with hb | hb <;> cases hb
  next h => rw [h] at hb; rcases hb with hb | hb <;> cases hb
  next h => rw [h] at hb; rcases hb with hb | hb <;> cases hb
  next => exact if_pos hb

theorem map_expect_eq (chars : List Char) (hc : isBytes chars) (x : α) :
    (expect chars (word chars ++ rest)).map (x, ·) = .ok (x, rest) := by
  rw [(expect_eq_ok_iff hc).2 rfl]
  rfl

theorem map_expect_eq_ok {chars : List Char} {x value : α} (hc : isBytes chars)
    (h : (expect chars tail).map (x, ·) = .ok (value, rest)) : tail = word chars ++ rest ∧ x = value := by
  obtain ⟨rest', hread, heq⟩ := map_eq_ok.1 h
  cases heq
  exact ⟨(expect_eq_ok_iff hc).1 hread, rfl⟩

theorem member_iff {value : Writing → List UInt8 → List UInt8 → Prop} (member : List Piece × Writing) (input rest : List UInt8) :
    Member value member input rest ↔
      ∃ behind, Marked '"' Pieces member.1 input behind ∧ Marked ':' value member.2 behind rest := by
  constructor
  · intro h
    obtain ⟨hquote, hps, hcolon, hw⟩ := h
    exact ⟨_, ⟨_, hquote, hps⟩, _, hcolon, hw⟩
  · intro h
    obtain ⟨behind, ⟨start, hquote, hps⟩, start', hcolon, hw⟩ := h
    exact .intro hquote hps hcolon hw

theorem reads_member {value : Reader α} {make : Writing → Except Fault α} (hname : Reads s.name Pieces m.name)
    (hvalue : Reads value Writing.Written make) :
    Reads (s.member value) (Member Writing.Written) (Writing.makeMember m make) := by
  refine ((hname.marked .quote).bind .colon fun name => (hvalue.map (name, ·)).marked .colon).congr member_iff fun member => ?_
  unfold Writing.makeMember
  cases m.name member.1 with
  | error e => rfl
  | ok name =>
    cases make member.2 <;> rfl

theorem opens_value : Opens Writing.Written ']' := by
  intro w input behind h
  obtain ⟨b, tail, hskip, hb⟩ := Writing.exists_start h
  exact ⟨b, tail, hskip, hb.ne.2⟩

theorem opens_member {value : Writing → List UInt8 → List UInt8 → Prop} : Opens (Member value) '\x7d' := by
  intro member input behind h
  obtain ⟨hquote, -, -, -⟩ := h
  exact ⟨_, _, IsMark.quote.skipBlanks_eq hquote, by decide⟩

section

variable (hnumber : Reads s.number Numeral.Written m.number) (htext : Reads s.text Pieces m.text)
  (hname : Reads s.name Pieces m.name) {depth : Nat}
  (hnested : ∀ d < depth, Reads (s.value d) Writing.Written (Writing.make s m d))

include hnumber htext hname hnested

theorem read_of_written (h : w.Written input rest) (he : Ends rest) :
    (s.value depth).read input = (w.make s m depth).map (·, rest) := by
  cases h with
  | null hblanks =>
    rw [read_value_eq s depth (skipBlanks_eq_cons hblanks rfl), Writing.make]
    exact map_expect_eq ['u', 'l', 'l'] rfl s.null
  | yes hblanks =>
    rw [read_value_eq s depth (skipBlanks_eq_cons hblanks rfl), Writing.make]
    exact map_expect_eq ['r', 'u', 'e'] rfl (s.bool true)
  | no hblanks =>
    rw [read_value_eq s depth (skipBlanks_eq_cons hblanks rfl), Writing.make]
    exact map_expect_eq ['a', 'l', 's', 'e'] rfl (s.bool false)
  | number hblanks hn =>
    obtain ⟨b, tail, rfl, hb⟩ := hn.head
    rw [read_value_eq s depth (skipBlanks_eq_cons hblanks (Writing.not_isWhitespace_of_number hb)), behind_number _ hb,
      hnumber.read_eq hn he, Writing.make]
  | text hblanks hps =>
    rw [read_value_eq s depth (skipBlanks_eq_cons hblanks rfl), Writing.make]
    exact htext.read_eq hps he
  | array hblanks hitems =>
    rw [read_value_eq s depth (skipBlanks_eq_cons hblanks rfl)]
    cases depth with
    | zero => rfl
    | succ d =>
      have hlist := reads_listInside (hnested d (Nat.lt_succ_self d)) opens_value .bracket (by decide)
      rw [Writing.make]
      exact (hlist.map s.array).read_eq hitems he
  | object hblanks hmembers =>
    rw [read_value_eq s depth (skipBlanks_eq_cons hblanks rfl)]
    cases depth with
    | zero => rfl
    | succ d =>
      have hmember := reads_member hname (hnested d (Nat.lt_succ_self d))
      have hlist := reads_listInside hmember opens_member .brace (by decide)
      rw [Writing.make]
      exact (hlist.map s.object).read_eq hmembers he

theorem exists_written_of_read {value : α} (h : (s.value depth).read input = .ok (value, rest)) :
    ∃ w, Writing.Written w input rest ∧ w.make s m depth = .ok value := by
  cases hskip : skipBlanks input with
  | nil =>
    rw [read_value_eq_nil s depth hskip] at h
    cases h
  | cons b tail =>
    rw [read_value_eq s depth hskip] at h
    unfold Scheme.behind at h
    split at h
    next hb =>
      obtain ⟨rfl, rfl⟩ := map_expect_eq_ok rfl h
      exact ⟨.null, .null (blanks_of_skipBlanks hskip hb), by rw [Writing.make]⟩
    next hb =>
      obtain ⟨rfl, rfl⟩ := map_expect_eq_ok rfl h
      exact ⟨.bool true, .yes (blanks_of_skipBlanks hskip hb), by rw [Writing.make]⟩
    next hb =>
      obtain ⟨rfl, rfl⟩ := map_expect_eq_ok rfl h
      exact ⟨.bool false, .no (blanks_of_skipBlanks hskip hb), by rw [Writing.make]⟩
    next hb =>
      obtain ⟨ps, hps, hm⟩ := htext.exists_written h
      exact ⟨.text ps, .text (blanks_of_skipBlanks hskip hb) hps, by rw [Writing.make, hm]⟩
    next hb =>
      cases depth with
      | zero => cases h
      | succ d =>
        have hlist := reads_listInside (hnested d (Nat.lt_succ_self d)) opens_value .bracket (by decide)
        obtain ⟨items, hitems, hm⟩ := (hlist.map s.array).exists_written h
        exact ⟨.array items, .array (blanks_of_skipBlanks hskip hb) hitems, by rw [Writing.make, hm]⟩
    next hb =>
      cases depth with
      | zero => cases h
      | succ d =>
        have hmember := reads_member hname (hnested d (Nat.lt_succ_self d))
        have hlist := reads_listInside hmember opens_member .brace (by decide)
        obtain ⟨members, hmembers, hm⟩ := (hlist.map s.object).exists_written h
        exact ⟨.object members, .object (blanks_of_skipBlanks hskip hb) hmembers, by rw [Writing.make, hm]⟩
    next =>
      split at h
      · obtain ⟨n, hn, hm⟩ := hnumber.exists_written h
        have hblanks := blanks_skipBlanks input
        rw [hskip] at hblanks
        exact ⟨.number n, .number hblanks hn, by rw [Writing.make, hm]⟩
      · cases h

end

/-- A walk reads values if its readers read numbers, strings and names. -/
theorem reads_value (hnumber : Reads s.number Numeral.Written m.number) (htext : Reads s.text Pieces m.text)
    (hname : Reads s.name Pieces m.name) (depth : Nat) :
    Reads (s.value depth) Writing.Written (Writing.make s m depth) := by
  induction depth using Nat.strongRecOn with
  | ind depth ih =>
    exact ⟨read_of_written hnumber htext hname ih, exists_written_of_read hnumber htext hname ih⟩

end

theorem reads_building (depth : Nat) : Reads (Scheme.building.value depth) Writing.Written (Writing.value depth) :=
  reads_value (reads_number.map Json.number) (reads_quoted.map Json.text) reads_quoted depth

theorem reads_skipping (depth : Nat) :
    Reads (Scheme.skipping.value depth) Writing.Written (Writing.make .skipping .skipping depth) :=
  reads_value reads_numberSkipper reads_skipQuoted (reads_skipQuoted.map fun _ => "") depth

/-- The value of a text is read, and nothing else is. -/
theorem ofBytes_eq_ok_iff {value : Json} : ofBytes input = .ok value ↔ IsText input value := by
  rw [isText_iff]
  exact (reads_building nestingLimit).whole_eq_ok_iff

/-! ## Faults of form -/

theorem readsForm_member {s : Scheme α} {value : Reader α} (hname : ReadsForm s.name) (hvalue : ReadsForm value) :
    ReadsForm (s.member value) :=
  ((readsForm_mark _).bind fun _ => hname).bind fun _ => (readsForm_mark _).bind fun _ => hvalue.map _

theorem readsForm_valueWith {s : Scheme α} {nested : Option (Unit → Reader α)} (hnumber : ReadsForm s.number)
    (htext : ReadsForm s.text) (hname : ReadsForm s.name) (hnested : ∀ r, nested = some r → ReadsForm (r ())) :
    ReadsForm (s.valueWith nested) := by
  intro input
  simp only [Scheme.valueWith]
  split
  · exact .truncated
  unfold Scheme.behind
  split
  · exact (ofForm_expect _ _).map _
  · exact (ofForm_expect _ _).map _
  · exact (ofForm_expect _ _).map _
  · exact htext _
  · split
    · exact (readsForm_listInside (hnested _ rfl) _).map _ _
    · exact .illFormed
  · split
    · exact (readsForm_listInside (readsForm_member hname (hnested _ rfl)) _).map _ _
    · exact .illFormed
  · split
    · exact hnumber _
    · exact .illFormed

theorem readsForm_building (depth : Nat) : ReadsForm (Scheme.building.value depth) := by
  have hnumber : ReadsForm Scheme.building.number := readsForm_number.map Json.number
  have htext : ReadsForm Scheme.building.text := readsForm_quoted.map Json.text
  induction depth with
  | zero => exact readsForm_valueWith hnumber htext readsForm_quoted nofun
  | succ depth ih =>
    refine readsForm_valueWith hnumber htext readsForm_quoted fun r hr => ?_
    cases hr
    exact ih

/-- A text that is no JSON is not refused for its shape. -/
theorem ofForm_ofBytes (input : List UInt8) : OfForm (ofBytes input) := by
  unfold ofBytes whole
  split
  next h => exact (readsForm_building nestingLimit input).error h
  split
  · exact .ok _
  · exact .illFormed

end Calculator.Json
