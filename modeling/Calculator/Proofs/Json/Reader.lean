/-
  Calculator.Proofs.Json.Reader — readers and the parts they read.

  A reader is right for a grammar if it reads each part the grammar describes as it should, and reads
  nothing else (`Reads`). Readers put together from right readers are right: behind each other, and
  in a list with commas (`reads_inside`, `reads_listInside`), where the state that goes through
  the list is a fold over its items.

  A part of the grammar is told from what follows it only if what follows cannot belong to a number
  (`Ends`). All that can follow a value meets that: a comma, a bracket that closes, and the end.
-/

import Calculator.Json.Writing
import Calculator.Proofs.Except

namespace Calculator.Json

/-! ## Characters and blanks -/

theorem toUInt8_ofUInt8 (b : UInt8) : (Char.ofUInt8 b).toUInt8 = b := by
  show b.toUInt32.toUInt8 = b
  simp

def continuesNumber (b : UInt8) : Bool :=
  (Char.ofUInt8 b).isDigit || ['.', 'e', 'E'].contains (Char.ofUInt8 b)

/-- What follows does not go on with a number. -/
def Ends (rest : List UInt8) : Prop := ∀ b, rest.head? = some b → continuesNumber b = false

/-- A character of JSON's structure: one byte, no blank and no part of a number. -/
structure IsMark (c : Char) : Prop where
  ofUInt8 : Char.ofUInt8 c.toUInt8 = c
  notBlank : c.isWhitespace = false
  ends : continuesNumber c.toUInt8 = false

theorem IsMark.quote : IsMark '"' := ⟨by decide, by decide, by decide⟩

theorem IsMark.colon : IsMark ':' := ⟨by decide, by decide, by decide⟩

theorem IsMark.comma : IsMark ',' := ⟨by decide, by decide, by decide⟩

theorem IsMark.bracket : IsMark ']' := ⟨by decide, by decide, by decide⟩

theorem IsMark.brace : IsMark '\x7d' := ⟨by decide, by decide, by decide⟩

variable {α β σ ω υ : Type} {input rest : List UInt8} {b : UInt8} {c : Char}

theorem ofUInt8_eq_iff (hc : Char.ofUInt8 c.toUInt8 = c) : Char.ofUInt8 b = c ↔ b = c.toUInt8 := by
  constructor
  · intro h
    rw [← h, toUInt8_ofUInt8]
  · intro h
    rw [h, hc]

def isBytes (chars : List Char) : Bool := chars.all fun c => Char.ofUInt8 c.toUInt8 == c

/-- A word is taken exactly where it stands. -/
theorem expect_eq_ok_iff {chars : List Char} (hc : isBytes chars) : expect chars input = .ok rest ↔ input = word chars ++ rest := by
  induction chars generalizing input with
  | nil =>
    show Except.ok input = .ok rest ↔ input = rest
    rw [Except.ok.injEq]
  | cons c chars ih =>
    have hc : (Char.ofUInt8 c.toUInt8 == c && isBytes chars) = true := hc
    obtain ⟨hchar, hchars⟩ := Bool.and_eq_true_iff.1 hc
    cases input with
    | nil => exact ⟨nofun, nofun⟩
    | cons b input =>
      have hrest : expect chars input = .ok rest ↔ input = word chars ++ rest := ih hchars
      have hb := ofUInt8_eq_iff (b := b) (beq_iff_eq.1 hchar)
      have hword : word (c :: chars) ++ rest = c.toUInt8 :: (word chars ++ rest) := rfl
      rw [hword, List.cons.injEq, ← hb, ← hrest]
      by_cases h : Char.ofUInt8 b = c
      · simp only [expect, h, if_true, true_and]
      · simp only [expect, h, if_false, false_and, reduceCtorEq]

theorem blanks_skipBlanks (input : List UInt8) : Blanks input (skipBlanks input) := by
  induction input with
  | nil => exact .nil
  | cons b input ih =>
    by_cases hb : (Char.ofUInt8 b).isWhitespace
    · have hskip : skipBlanks (b :: input) = skipBlanks input := List.dropWhile_cons_of_pos hb
      rw [hskip]
      exact .cons hb ih
    · have hskip : skipBlanks (b :: input) = b :: input := List.dropWhile_cons_of_neg hb
      rw [hskip]
      exact .nil

/-- What follows blanks stays when they are skipped. -/
theorem skipBlanks_eq_of_blanks (h : Blanks input rest) : skipBlanks input = skipBlanks rest := by
  induction h with
  | nil => rfl
  | @cons b input rest hb _ ih =>
    have hskip : skipBlanks (b :: input) = skipBlanks input := List.dropWhile_cons_of_pos hb
    rw [hskip, ih]

theorem skipBlanks_eq_cons (h : Blanks input (b :: rest)) (hb : (Char.ofUInt8 b).isWhitespace = false) :
    skipBlanks input = b :: rest := by
  rw [skipBlanks_eq_of_blanks h]
  exact List.dropWhile_cons_of_neg (by simp [hb])

theorem skipBlanks_eq_nil_iff : skipBlanks input = [] ↔ Blanks input [] := by
  constructor
  · intro h
    have := blanks_skipBlanks input
    rwa [h] at this
  · intro h
    rw [skipBlanks_eq_of_blanks h]
    rfl

theorem Blanks.length_le (h : Blanks input rest) : rest.length ≤ input.length := by
  induction h with
  | nil => exact Nat.le_refl _
  | cons _ _ ih => exact Nat.le_succ_of_le ih

theorem continuesNumber_of_isWhitespace (h : (Char.ofUInt8 b).isWhitespace) : continuesNumber b = false := by
  unfold continuesNumber
  generalize Char.ofUInt8 b = c at h
  simp only [Char.isWhitespace, Bool.or_eq_true, decide_eq_true_eq] at h
  rcases h with ((rfl | rfl) | rfl) | rfl <;> decide

theorem Blanks.ends (h : Blanks input rest) (hr : Ends rest) : Ends input := by
  cases h with
  | nil => exact hr
  | cons hb _ =>
    intro b' hb'
    cases hb'
    exact continuesNumber_of_isWhitespace hb

theorem Ends.nil : Ends [] := nofun

theorem IsMark.ends_cons (hc : IsMark c) : Ends (c.toUInt8 :: rest) := by
  intro b hb
  cases hb
  exact hc.ends

theorem IsMark.skipBlanks_eq (hc : IsMark c) (h : Blanks input (c.toUInt8 :: rest)) :
    skipBlanks input = c.toUInt8 :: rest :=
  skipBlanks_eq_cons h (by rw [hc.ofUInt8]; exact hc.notBlank)

/-- A byte that is looked at as a mark is that mark. -/
theorem blanks_of_skipBlanks (h : skipBlanks input = b :: rest) (hb : Char.ofUInt8 b = c) : Blanks input (c.toUInt8 :: rest) := by
  have := blanks_skipBlanks input
  rwa [h, ← toUInt8_ofUInt8 b, hb] at this

namespace Reader

/-! ## Readers that are right for a grammar -/

/-- The reader reads what is written by the grammar, and makes of it what it should. -/
structure Reads (r : Reader α) (written : ω → List UInt8 → List UInt8 → Prop) (make : ω → Except Fault α) : Prop where
  read_eq : ∀ {w : ω} {input rest : List UInt8}, written w input rest → Ends rest →
    r.read input = (make w).map (·, rest)
  exists_written : ∀ {input rest : List UInt8} {value : α}, r.read input = .ok (value, rest) →
    ∃ w, written w input rest ∧ make w = .ok value

theorem read_mark (hc : IsMark c) (h : Blanks input (c.toUInt8 :: rest)) : (mark c).read input = .ok ((), rest) := by
  simp only [mark, hc.skipBlanks_eq h, hc.ofUInt8, if_pos]

theorem blanks_of_read_mark {value : Unit} (h : (mark c).read input = .ok (value, rest)) : Blanks input (c.toUInt8 :: rest) := by
  simp only [mark] at h
  split at h
  · cases h
  next b rest' hskip =>
  split at h
  next hb =>
    cases h
    exact blanks_of_skipBlanks hskip hb
  · cases h

theorem read_map (f : α → β) (r : Reader α) : (r.map f).read input = (r.read input).map fun (x, rest) => (f x, rest) := by
  simp only [map]
  cases r.read input <;> rfl

theorem read_bind (r : Reader α) (next : α → Reader β) :
    (r.bind next).read input = r.read input >>= fun (x, rest) => (next x).read rest := by
  simp only [bind]
  cases r.read input <;> rfl

theorem read_bind_mark (hc : IsMark c) (h : Blanks input (c.toUInt8 :: rest)) (r : Unit → Reader α) :
    ((mark c).bind r).read input = (r ()).read rest := by
  rw [read_bind, read_mark hc h]
  rfl

variable {written : ω → List UInt8 → List UInt8 → Prop} {make : ω → Except Fault α} {r : Reader α}

theorem Reads.map (hr : Reads r written make) (f : α → β) : Reads (r.map f) written fun w => (make w).map f where
  read_eq hw he := by
    rw [read_map, hr.read_eq hw he]
    cases make _ <;> rfl
  exists_written h := by
    rw [read_map] at h
    obtain ⟨taken, hread, heq⟩ := map_eq_ok.1 h
    cases heq
    obtain ⟨w, hw, hm⟩ := hr.exists_written hread
    refine ⟨w, hw, ?_⟩
    rw [hm]
    rfl

theorem Reads.congr {written' : ω → List UInt8 → List UInt8 → Prop} {make' : ω → Except Fault α} (hr : Reads r written make)
    (hwritten : ∀ w input rest, written' w input rest ↔ written w input rest) (hmake : ∀ w, make' w = make w) :
    Reads r written' make' where
  read_eq hw he := by
    rw [hmake]
    exact hr.read_eq ((hwritten _ _ _).1 hw) he
  exists_written h := by
    obtain ⟨w, hw, hm⟩ := hr.exists_written h
    exact ⟨w, (hwritten _ _ _).2 hw, (hmake w).trans hm⟩

/-- Nothing that a reader refuses is read. -/
theorem reads_fail (fault : Fault) : Reads (fail fault : Reader α) written fun _ => .error fault where
  read_eq _ _ := rfl
  exists_written h := nomatch h

def Marked (c : Char) (written : ω → List UInt8 → List UInt8 → Prop) (w : ω) (input rest : List UInt8) : Prop :=
  ∃ start, Blanks input (c.toUInt8 :: start) ∧ written w start rest

theorem Reads.marked (hr : Reads r written make) (hc : IsMark c) :
    Reads ((mark c).bind fun _ => r) (Marked c written) make where
  read_eq h he := by
    obtain ⟨start, hmark, hw⟩ := h
    rw [read_bind_mark hc hmark]
    exact hr.read_eq hw he
  exists_written h := by
    rw [read_bind] at h
    obtain ⟨taken, hmark, h⟩ := bind_eq_ok.1 h
    obtain ⟨w, hw, hm⟩ := hr.exists_written h
    exact ⟨w, ⟨_, blanks_of_read_mark hmark, hw⟩, hm⟩

/-- One part behind the other, where the second starts with a mark. -/
theorem Reads.bind {written' : υ → List UInt8 → List UInt8 → Prop} {next : α → Reader β} {make' : α → υ → Except Fault β}
    (hr : Reads r written make) (hc : IsMark c) (hnext : ∀ x, Reads (next x) (Marked c written') (make' x)) :
    Reads (r.bind next) (fun (w : ω × υ) input rest => ∃ behind, written w.1 input behind ∧ Marked c written' w.2 behind rest)
      fun w => make w.1 >>= fun x => make' x w.2 where
  read_eq {w input rest} h he := by
    obtain ⟨behind, hw, hw'⟩ := h
    have hends : Ends behind := by
      obtain ⟨start, hmark, -⟩ := hw'
      exact hmark.ends hc.ends_cons
    rw [read_bind, hr.read_eq hw hends]
    cases make w.1 with
    | error e => rfl
    | ok x => exact (hnext x).read_eq hw' he
  exists_written h := by
    rw [read_bind] at h
    obtain ⟨taken, hread, h⟩ := bind_eq_ok.1 h
    obtain ⟨w, hw, hm⟩ := hr.exists_written hread
    obtain ⟨w', hw', hm'⟩ := (hnext taken.1).exists_written h
    refine ⟨(w, w'), ⟨_, hw, hw'⟩, ?_⟩
    rw [hm]
    exact hm'

/-- A reader takes a whole text if it leaves nothing but blanks. -/
theorem whole_eq_ok_iff {value : α} : r.whole input = .ok value ↔ ∃ rest, r.read input = .ok (value, rest) ∧ Blanks rest [] := by
  unfold whole
  constructor
  · intro h
    split at h
    · cases h
    next hread =>
    split at h
    next hempty =>
      cases h
      exact ⟨_, hread, skipBlanks_eq_nil_iff.1 (List.isEmpty_iff.1 hempty)⟩
    · cases h
  · intro h
    obtain ⟨rest, hread, hblanks⟩ := h
    have hempty : (skipBlanks rest).isEmpty = true := List.isEmpty_iff.2 (skipBlanks_eq_nil_iff.2 hblanks)
    rw [hread]
    exact if_pos hempty

theorem Reads.whole_eq_ok_iff (hr : Reads r written make) {value : α} :
    r.whole input = .ok value ↔ ∃ w rest, written w input rest ∧ Blanks rest [] ∧ make w = .ok value := by
  rw [Reader.whole_eq_ok_iff]
  constructor
  · intro h
    obtain ⟨rest, hread, hblanks⟩ := h
    obtain ⟨w, hw, hm⟩ := hr.exists_written hread
    exact ⟨w, rest, hw, hblanks, hm⟩
  · intro h
    obtain ⟨w, rest, hw, hblanks, hm⟩ := h
    have hread := hr.read_eq hw (hblanks.ends .nil)
    rw [hm] at hread
    exact ⟨rest, hread, hblanks⟩

/-- A text that is written right, but of which nothing can be made. -/
theorem Reads.whole_eq_error (hr : Reads r written make) {w : ω} {fault : Fault} (hw : written w input rest)
    (hblanks : Blanks rest []) (hm : make w = .error fault) : r.whole input = .error fault := by
  have hread := hr.read_eq hw (hblanks.ends .nil)
  rw [hm] at hread
  unfold whole
  rw [hread]
  rfl

/-! ## Lists -/

theorem loop_eq_match (item : σ → Reader σ) (close : Char) (state : σ) (input : List UInt8) :
    loop item close state input =
      match (item state).read input with
      | .error e => .error e
      | .ok (state, rest) =>
        match skipBlanks rest with
        | [] => .error .truncated
        | b :: rest =>
          if Char.ofUInt8 b = ',' then loop item close state rest
          else if Char.ofUInt8 b = close then .ok (state, rest)
          else .error .illFormed := by
  rw [loop]
  split
  next h => rw [h]
  next state' rest' h =>
    rw [h]
    split
    next hs => simp only [hs]
    next hs => simp only [hs]

section

variable {item : σ → Reader σ} {push : σ → ω → Except Fault σ} {close : Char} {xs : List ω} {state : σ}

theorem loop_eq (hitem : ∀ state, Reads (item state) written (push state)) (hc : IsMark close) (hcomma : close ≠ ',')
    (h : Series written close xs input rest) : loop item close state input = (xs.foldlM push state).map (·, rest) := by
  induction h generalizing state with
  | @last x input behind rest hx hclose =>
    rw [loop_eq_match, (hitem state).read_eq hx (hclose.ends hc.ends_cons)]
    cases hp : push state x with
    | error e => simp [Except.map, List.foldlM, hp, Bind.bind, Except.bind]
    | ok state' =>
      simp only [Except.map, hc.skipBlanks_eq hclose, hc.ofUInt8, if_neg hcomma, if_pos]
      simp [List.foldlM, hp, Bind.bind, Except.bind, Pure.pure, Except.pure]
  | @more x xs input behind next rest hx hmore _ ih =>
    rw [loop_eq_match, (hitem state).read_eq hx (hmore.ends IsMark.comma.ends_cons)]
    cases hp : push state x with
    | error e => simp [Except.map, List.foldlM, hp, Bind.bind, Except.bind]
    | ok state' =>
      simp only [Except.map, IsMark.comma.skipBlanks_eq hmore, IsMark.comma.ofUInt8, if_pos, ih]
      simp [List.foldlM, hp, Bind.bind, Except.bind]

theorem exists_series (hitem : ∀ state, Reads (item state) written (push state)) {final : σ}
    (h : loop item close state input = .ok (final, rest)) :
    ∃ xs, Series written close xs input rest ∧ xs.foldlM push state = .ok final := by
  fun_induction loop item close state input with
  | case1 => cases h
  | case2 => cases h
  | case3 state input state' rest' hr b rest'' hs hb ih =>
    obtain ⟨x, hx, hp⟩ := (hitem state).exists_written hr
    obtain ⟨xs, hxs, hfold⟩ := ih h
    refine ⟨x :: xs, .more hx (blanks_of_skipBlanks hs hb) hxs, ?_⟩
    simp [List.foldlM, hp, hfold, Bind.bind, Except.bind]
  | case4 state input state' rest' hr b rest'' hs hb hc =>
    cases h
    obtain ⟨x, hx, hp⟩ := (hitem state).exists_written hr
    refine ⟨[x], .last hx (blanks_of_skipBlanks hs hc), ?_⟩
    simp [List.foldlM, hp, Bind.bind, Except.bind, Pure.pure, Except.pure]
  | case5 => cases h

/-- An item does not start with the character that closes the list. -/
def Opens (written : ω → List UInt8 → List UInt8 → Prop) (close : Char) : Prop :=
  ∀ {x : ω} {input behind : List UInt8}, written x input behind →
    ∃ b rest, skipBlanks input = b :: rest ∧ Char.ofUInt8 b ≠ close

theorem reads_inside (hitem : ∀ state, Reads (item state) written (push state)) (hopens : Opens written close)
    (hc : IsMark close) (hcomma : close ≠ ',') (state : σ) :
    Reads (inside item close state) (Inside written close) fun xs => xs.foldlM push state where
  read_eq h _ := by
    cases h with
    | empty hclose =>
      simp only [inside, hc.skipBlanks_eq hclose, hc.ofUInt8, if_pos]
      rfl
    | series hseries =>
      obtain ⟨b, rest', hskip, hb⟩ : ∃ b rest', skipBlanks _ = b :: rest' ∧ Char.ofUInt8 b ≠ close := by
        cases hseries with
        | last hx => exact hopens hx
        | more hx => exact hopens hx
      simp only [inside, hskip, if_neg hb]
      exact loop_eq hitem hc hcomma hseries
  exists_written h := by
    simp only [inside] at h
    split at h
    · cases h
    next b rest' hskip =>
    split at h
    next hb =>
      cases h
      exact ⟨[], .empty (blanks_of_skipBlanks hskip hb), rfl⟩
    · obtain ⟨xs, hxs, hfold⟩ := exists_series hitem h
      exact ⟨xs, .series hxs, hfold⟩

end

theorem foldlM_cons_eq_mapM (make : ω → Except Fault α) (xs : List ω) (done : List α) :
    xs.foldlM (fun done x => (make x).map (· :: done)) done = (xs.mapM make).map fun ys => ys.reverse ++ done := by
  induction xs generalizing done with
  | nil => rfl
  | cons x xs ih =>
    rw [List.foldlM_cons, List.mapM_cons]
    cases make x with
    | error e => rfl
    | ok y =>
      show xs.foldlM (fun done x => (make x).map (· :: done)) (y :: done) = _
      rw [ih]
      cases xs.mapM make with
      | error e => rfl
      | ok ys =>
        show Except.ok (ys.reverse ++ y :: done) = Except.ok ((y :: ys).reverse ++ done)
        rw [List.reverse_cons, List.append_assoc]
        rfl

theorem reads_listInside {close : Char} (hr : Reads r written make) (hopens : Opens written close) (hc : IsMark close)
    (hcomma : close ≠ ',') : Reads (listInside r close) (Inside written close) fun xs => xs.mapM make := by
  have h := (reads_inside (fun done => hr.map (· :: done)) hopens hc hcomma []).map List.reverse
  have hmake (xs : List ω) : (xs.foldlM (fun done x => (make x).map (· :: done)) []).map List.reverse = xs.mapM make := by
    rw [foldlM_cons_eq_mapM]
    cases xs.mapM make with
    | error e => rfl
    | ok ys =>
      show Except.ok ((ys.reverse ++ []).reverse) = Except.ok ys
      rw [List.append_nil, List.reverse_reverse]
  simp only [hmake] at h
  exact h

/-! ## Faults of form -/

/-- What is refused is not refused for its shape. -/
def OfForm (result : Except Fault α) : Prop := result ≠ .error .wrongShape

def ReadsForm (r : Reader α) : Prop := ∀ input, OfForm (r.read input)

theorem OfForm.ok (value : α) : OfForm (Except.ok value) := nofun

theorem OfForm.truncated : OfForm (Except.error .truncated : Except Fault α) := nofun

theorem OfForm.illFormed : OfForm (Except.error .illFormed : Except Fault α) := nofun

/-- A fault that is passed on. -/
theorem OfForm.error {result : Except Fault α} {e : Fault} (h : OfForm result) (he : result = .error e) :
    OfForm (Except.error e : Except Fault β) := by
  intro hno
  cases hno
  exact h he

theorem OfForm.map {result : Except Fault α} (h : OfForm result) (f : α → β) : OfForm (result.map f) := by
  cases result with
  | error e => exact h.error rfl
  | ok value => exact .ok _

theorem ofForm_expect (chars : List Char) (input : List UInt8) : OfForm (expect chars input) := by
  fun_induction expect chars input with
  | case1 => exact .ok _
  | case2 => exact .truncated
  | case3 _ _ _ ih => exact ih
  | case4 => exact .illFormed

theorem readsForm_mark (c : Char) : ReadsForm (mark c) := by
  intro input
  simp only [mark]
  split
  · exact .truncated
  split
  · exact .ok _
  · exact .illFormed

theorem ReadsForm.map (hr : ReadsForm r) (f : α → β) : ReadsForm (r.map f) := by
  intro input
  rw [read_map]
  exact (hr input).map _

theorem ReadsForm.bind {next : α → Reader β} (hr : ReadsForm r) (hnext : ∀ x, ReadsForm (next x)) : ReadsForm (r.bind next) := by
  intro input
  rw [read_bind]
  cases hread : r.read input with
  | error e => exact (hr input).error hread
  | ok taken => exact hnext taken.1 taken.2

theorem ofForm_loop {item : σ → Reader σ} (hitem : ∀ state, ReadsForm (item state)) (close : Char) (state : σ)
    (input : List UInt8) : OfForm (loop item close state input) := by
  fun_induction loop item close state input with
  | case1 state input e hread => exact (hitem state input).error hread
  | case2 => exact .truncated
  | case3 _ _ _ _ _ _ _ _ _ ih => exact ih
  | case4 => exact .ok _
  | case5 => exact .illFormed

theorem readsForm_inside {item : σ → Reader σ} (hitem : ∀ state, ReadsForm (item state)) (close : Char) (state : σ) :
    ReadsForm (inside item close state) := by
  intro input
  simp only [inside]
  split
  · exact .truncated
  split
  · exact .ok _
  · exact ofForm_loop hitem close state input

theorem readsForm_listInside (hr : ReadsForm r) (close : Char) : ReadsForm (listInside r close) :=
  (readsForm_inside (fun done => hr.map (· :: done)) close []).map List.reverse

end Reader

end Calculator.Json
