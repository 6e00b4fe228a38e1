/-
  Calculator.Proofs.Json.Quote — what is written in quotes is read back.

  Each character of a quoted string is a short escape, a code unit or its own bytes
  (`exists_pieces_quoteChar`), and the pieces spell the string (`exists_pieces_quote`). Main statement:
  `isText_member`, an object of one member whose value is a string, as it is written without blanks,
  is a text of that object.
-/

import Calculator.Proofs.Json.Compact
import Calculator.Proofs.Json.Flaw

namespace Calculator.Json

def utf8 (chars : List Char) : List UInt8 := chars.flatMap String.utf8EncodeChar

theorem utf8_append (front behind : List Char) : utf8 (front ++ behind) = utf8 front ++ utf8 behind :=
  List.flatMap_append

variable {b : UInt8} {c : Char} {ps : List Piece} {input rest : List UInt8}

/-! ## Characters -/

structure IsPlain (b : UInt8) : Prop where
  notControl : 0x20 ≤ b
  ne_quote : b ≠ '"'.toUInt8
  ne_backslash : b ≠ '\\'.toUInt8

/-- A byte of a character beyond the first 128. -/
theorem isPlain_of_le {n : Nat} (h : 0x80 ≤ n) (hn : n < 0x100) : IsPlain (UInt8.ofNat n) := by
  have hb : (UInt8.ofNat n).toNat = n := UInt8.toNat_ofNat_of_lt hn
  refine ⟨?_, fun heq => ?_, fun heq => ?_⟩
  · rw [UInt8.le_iff_toNat_le, hb]
    exact Nat.le_trans (by decide) h
  · rw [heq] at hb
    have : ('"'.toUInt8).toNat = 34 := rfl
    omega
  · rw [heq] at hb
    have : ('\\'.toUInt8).toNat = 92 := rfl
    omega

/-- A character that is not escaped is written in bytes that stand for themselves. -/
theorem isPlain_of_mem_utf8EncodeChar (hcontrol : 0x20 ≤ c.toNat) (hquote : c ≠ '"') (hbackslash : c ≠ '\\') :
    ∀ b ∈ String.utf8EncodeChar c, IsPlain b := by
  intro b hb
  unfold String.utf8EncodeChar at hb
  simp only at hb
  split at hb
  next hsize =>
    have hb : b = UInt8.ofNat c.toNat := List.mem_singleton.1 hb
    have hn : (UInt8.ofNat c.toNat).toNat = c.toNat := UInt8.toNat_ofNat_of_lt (Nat.lt_of_le_of_lt hsize (by decide))
    -- a byte below 128 is the character of its number
    have hchar (d : Char) (hd : c ≠ d) (hd' : (d.toUInt8).toNat = d.toNat) : UInt8.ofNat c.toNat ≠ d.toUInt8 := by
      intro heq
      rw [heq, hd'] at hn
      exact hd (Char.toNat_inj.1 hn.symm)
    subst hb
    refine ⟨?_, hchar '"' hquote rfl, hchar '\\' hbackslash rfl⟩
    rw [UInt8.le_iff_toNat_le, hn]
    exact hcontrol
  split at hb
  · simp only [List.mem_cons, List.not_mem_nil, or_false] at hb
    rcases hb with rfl | rfl
    · exact isPlain_of_le (by omega) (by omega)
    · exact isPlain_of_le (by omega) (by omega)
  split at hb
  · simp only [List.mem_cons, List.not_mem_nil, or_false] at hb
    rcases hb with rfl | rfl | rfl
    · exact isPlain_of_le (by omega) (by omega)
    · exact isPlain_of_le (by omega) (by omega)
    · exact isPlain_of_le (by omega) (by omega)
  · simp only [List.mem_cons, List.not_mem_nil, or_false] at hb
    rcases hb with rfl | rfl | rfl | rfl
    · exact isPlain_of_le (by omega) (by omega)
    · exact isPlain_of_le (by omega) (by omega)
    · exact isPlain_of_le (by omega) (by omega)
    · exact isPlain_of_le (by omega) (by omega)

theorem pieces_plain {bs : List UInt8} (hbs : ∀ b ∈ bs, IsPlain b) (hps : Pieces ps input rest) :
    Pieces (bs.map .plain ++ ps) (bs ++ input) rest := by
  induction bs with
  | nil => exact hps
  | cons b bs ih =>
    obtain ⟨hcontrol, hquote, hbackslash⟩ := hbs b List.mem_cons_self
    exact .plain hcontrol hquote hbackslash (ih fun b hb => hbs b (List.mem_cons_of_mem _ hb))

/-! ## Strings in quotes -/

/-- The last two digits of a control character. -/
theorem codeUnit_control (h : c.toNat < 0x20) :
    CodeUnit (UInt16.ofNat c.toNat)
      (utf8 ['0', '0', (c.toNat / 16).digitChar, (c.toNat % 16).digitChar] ++ input) input := by
  have hdigit : ∀ v < 16, String.utf8EncodeChar v.digitChar = [v.digitChar.toUInt8] ∧
      Char.ofUInt8 v.digitChar.toUInt8 = v.digitChar := by
    decide
  have hhex (v : Nat) (hv : v < 16) : HexDigit v.digitChar.toUInt8 v := ⟨hv, .inl (hdigit v hv).2⟩
  have hzero : HexDigit '0'.toUInt8 0 := hhex 0 (by decide)
  have hu : (UInt16.ofNat c.toNat).toNat = c.toNat := UInt16.toNat_ofNat_of_lt (Nat.lt_of_lt_of_le h (by decide))
  have hbytes : utf8 ['0', '0', (c.toNat / 16).digitChar, (c.toNat % 16).digitChar] =
      ['0'.toUInt8, '0'.toUInt8, (c.toNat / 16).digitChar.toUInt8, (c.toNat % 16).digitChar.toUInt8] := by
    show String.utf8EncodeChar '0' ++ (String.utf8EncodeChar '0' ++
      (String.utf8EncodeChar (c.toNat / 16).digitChar ++ (String.utf8EncodeChar (c.toNat % 16).digitChar ++ []))) = _
    rw [(hdigit (c.toNat / 16) (by omega)).1, (hdigit (c.toNat % 16) (by omega)).1]
    rfl
  rw [hbytes]
  refine .intro hzero hzero (hhex (c.toNat / 16) (by omega)) (hhex (c.toNat % 16) (by omega)) ?_
  rw [hu]
  omega

/-- A character in quotes is the start of pieces that spell it. -/
theorem exists_pieces_quoteChar (c : Char) (hps : Pieces ps input rest) :
    ∃ front, Pieces (front ++ ps) (utf8 (quoteChar c) ++ input) rest ∧
      ∀ cs, Spells ps cs → Spells (front ++ ps) (c :: cs) := by
  have short {b : UInt8} (hb : ShortEscape (Char.ofUInt8 b) c) :
      ∃ front, Pieces (front ++ ps) ('\\'.toUInt8 :: b :: input) rest ∧
        ∀ cs, Spells ps cs → Spells (front ++ ps) (c :: cs) :=
    ⟨[.short c], .short hb hps, fun cs hcs => .escaped .short hcs⟩
  unfold quoteChar
  split
  · exact short (b := '"'.toUInt8) .quote
  · exact short (b := '\\'.toUInt8) .backslash
  · exact short (b := 'b'.toUInt8) .backspace
  · exact short (b := 'f'.toUInt8) .formFeed
  · exact short (b := 'n'.toUInt8) .lineFeed
  · exact short (b := 'r'.toUInt8) .carriageReturn
  · exact short (b := 't'.toUInt8) .tab
  next hquote hbackslash _ _ _ _ _ =>
    split
    next hcontrol =>
      have hu : (UInt16.ofNat c.toNat).toNat = c.toNat := UInt16.toNat_ofNat_of_lt (Nat.lt_of_lt_of_le hcontrol (by decide))
      exact ⟨[.unit (UInt16.ofNat c.toNat)], .unit (codeUnit_control hcontrol) hps, fun cs hcs => .escaped (.unit hu) hcs⟩
    next hcontrol =>
      have hplain := isPlain_of_mem_utf8EncodeChar (Nat.le_of_not_lt hcontrol) hquote hbackslash
      have hbytes : utf8 [c] = String.utf8EncodeChar c := List.flatMap_singleton _ _
      refine ⟨(String.utf8EncodeChar c).map .plain, ?_, fun cs hcs => .plain c hcs⟩
      rw [hbytes]
      exact pieces_plain hplain hps

theorem exists_pieces_quote (cs : List Char) (rest : List UInt8) :
    ∃ ps, Pieces ps (utf8 (cs.flatMap quoteChar) ++ '"'.toUInt8 :: rest) rest ∧ Spells ps cs := by
  induction cs with
  | nil => exact ⟨[], .nil, .nil⟩
  | cons c cs ih =>
    obtain ⟨ps, hps, hspells⟩ := ih
    obtain ⟨front, hfront, hspells'⟩ := exists_pieces_quoteChar c hps
    refine ⟨front ++ ps, ?_, hspells' cs hspells⟩
    rw [List.flatMap_cons, utf8_append, List.append_assoc]
    exact hfront

theorem utf8_quote (s : String) :
    utf8 (quote s).toList = '"'.toUInt8 :: (utf8 (s.toList.flatMap quoteChar) ++ ['"'.toUInt8]) := by
  unfold quote
  simp only [String.toList_append, String.toList_ofList, utf8_append]
  rfl

/-! ## An object of one member -/

theorem utf8_compact_member (name value : String) :
    utf8 (compact (.object [(name, .text value)])).toList =
      '\x7b'.toUInt8 :: '"'.toUInt8 :: (utf8 (name.toList.flatMap quoteChar) ++ '"'.toUInt8 ::
        ':'.toUInt8 :: '"'.toUInt8 :: (utf8 (value.toList.flatMap quoteChar) ++ '"'.toUInt8 :: ['\x7d'.toUInt8])) := by
  rw [compact_member]
  simp only [String.toList_append, utf8_append, utf8_quote, List.append_assoc, List.cons_append, List.nil_append]
  rfl

/-- An object of one member with a string, as it is written without blanks, is a text of it. -/
theorem isText_member (name value : String) :
    IsText (utf8 (compact (.object [(name, .text value)])).toList) (.object [(name, .text value)]) := by
  obtain ⟨ps, hps, hvalue⟩ := exists_pieces_quote value.toList ['\x7d'.toUInt8]
  obtain ⟨ns, hns, hname⟩ := exists_pieces_quote name.toList
    (':'.toUInt8 :: '"'.toUInt8 :: (utf8 (value.toList.flatMap quoteChar) ++ '"'.toUInt8 :: ['\x7d'.toUInt8]))
  have hmember : Writing.memberValue 126 (ns, .text ps) = .ok (name, .text value) :=
    Writing.memberValue_eq_ok_iff.2 ⟨hname, value_eq_text_iff.2 ⟨ps, rfl, hvalue⟩⟩
  refine isText_object_iff.2 ⟨[(ns, .text ps)], [], ?_, .nil, mapM_cons_eq_ok_iff.2 ⟨_, [], rfl, hmember, rfl⟩⟩
  rw [utf8_compact_member]
  exact .object .nil (.series (.last (.intro .nil hns .nil (.text .nil hps)) .nil))

end Calculator.Json
