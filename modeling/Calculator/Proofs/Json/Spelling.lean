/-
  Calculator.Proofs.Json.Spelling — the text that pieces spell.

  Bytes of UTF-8 fall into characters in one way only (`utf8EncodeChar_append_inj`), and no escape can
  stand inside a character: an escape starts with a first byte, and the other bytes of a character are
  none (`exists_plain`). So pieces are a text exactly if they spell its characters
  (`text?_eq_some_iff`), and else they have a flaw (`flaw_iff`).
-/

import Calculator.Json.Denotation
import Calculator.Proofs.Json.Text

namespace Calculator.Json

variable {u : UInt16} {c : Char} {ps : List Piece}

/-! ## UTF-8 -/

theorem fromUTF8?_eq_some_iff {bytes : List UInt8} {t : String} :
    String.fromUTF8? ⟨bytes.toArray⟩ = some t ↔ bytes = t.toList.flatMap String.utf8EncodeChar := by
  have htext : bytes = t.toList.flatMap String.utf8EncodeChar ↔ (⟨bytes.toArray⟩ : ByteArray) = t.toByteArray := by
    rw [← String.utf8Encode_toList, ByteArray.ext_iff, ← Array.toList_inj]
    simp [List.utf8Encode]
  rw [htext]
  unfold String.fromUTF8?
  constructor
  · intro h
    split at h
    · cases h
      rfl
    · cases h
  · intro h
    rw [h, dif_pos t.isValidUTF8]
    rfl

/-- Characters are told apart by their bytes, whatever follows. -/
theorem utf8EncodeChar_append_inj {c d : Char} {xs ys : List UInt8}
    (h : String.utf8EncodeChar c ++ xs = String.utf8EncodeChar d ++ ys) : c = d ∧ xs = ys := by
  have decode (c : Char) (xs : List UInt8) :
      (String.utf8EncodeChar c ++ xs).toByteArray.utf8DecodeChar? 0 = some c := by
    rw [List.toByteArray_append]
    exact ByteArray.utf8DecodeChar?_utf8EncodeChar_append
  have hc : c = d := by
    have hd := decode d ys
    rw [← h, decode c xs] at hd
    exact Option.some.inj hd
  subst hc
  exact ⟨rfl, List.append_cancel_left h⟩

/-- A character's bytes: a first byte, and others that are none. -/
theorem utf8EncodeChar_eq_cons (c : Char) :
    ∃ b bs, String.utf8EncodeChar c = b :: bs ∧ b.IsUTF8FirstByte ∧ ∀ b' ∈ bs, ¬ b'.IsUTF8FirstByte := by
  have hfirst (i : Nat) (hi : i < (String.utf8EncodeChar c).length) :
      (String.utf8EncodeChar c)[i].IsUTF8FirstByte ↔ i = 0 := UInt8.isUTF8FirstByte_getElem_utf8EncodeChar
  cases hc : String.utf8EncodeChar c with
  | nil => exact absurd hc String.utf8EncodeChar_ne_nil
  | cons b bs =>
    simp only [hc] at hfirst
    refine ⟨b, bs, rfl, (hfirst 0 (Nat.succ_pos _)).2 rfl, fun b' hb' hb'' => ?_⟩
    obtain ⟨i, hi, rfl⟩ := List.getElem_of_mem hb'
    exact absurd ((hfirst (i + 1) (Nat.succ_lt_succ hi)).1 hb'') (Nat.succ_ne_zero i)

namespace Piece

variable {bytes bs tail : List UInt8} {cs : List Char}

theorem toNat_ofNat_of_isValidChar {n : Nat} (h : n.isValidChar) : (Char.ofNat n).toNat = n := by
  rw [Char.ofNat, dif_pos h]
  rfl

theorem isLeadingSurrogate_iff {n : Nat} : isLeadingSurrogate n = true ↔ 0xD800 ≤ n ∧ n ≤ 0xDBFF := by
  unfold isLeadingSurrogate
  rw [Bool.and_eq_true, decide_eq_true_iff, decide_eq_true_iff]

theorem isTrailingSurrogate_iff {n : Nat} : isTrailingSurrogate n = true ↔ 0xDC00 ≤ n ∧ n ≤ 0xDFFF := by
  unfold isTrailingSurrogate
  rw [Bool.and_eq_true, decide_eq_true_iff, decide_eq_true_iff]

theorem isValidChar_toNat (hu : ¬ isTrailingSurrogate u.toNat = true) (hleading : ¬ isLeadingSurrogate u.toNat = true) :
    u.toNat.isValidChar := by
  rw [isTrailingSurrogate_iff] at hu
  rw [isLeadingSurrogate_iff] at hleading
  have := u.toNat_lt
  unfold Nat.isValidChar
  omega

theorem toNat_pairChar {leading trailing : Nat} (h : isLeadingSurrogate leading = true) (ht : isTrailingSurrogate trailing = true) :
    (pairChar leading trailing).toNat = 0x10000 + (leading - 0xD800) * 0x400 + (trailing - 0xDC00) := by
  rw [isLeadingSurrogate_iff] at h
  rw [isTrailingSurrogate_iff] at ht
  have hvalid : Nat.isValidChar ((leading - 0xD800) * 0x400 + (trailing - 0xDC00) + 0x10000) := by
    refine .inr ⟨?_, ?_⟩ <;> omega
  rw [pairChar, toNat_ofNat_of_isValidChar hvalid]
  omega

theorem bytes?_of_escaped {rest : List Piece} (h : Escaped c ps rest) :
    bytes? ps = (bytes? rest).map (String.utf8EncodeChar c ++ ·) := by
  cases h with
  | short => rfl
  | @unit u _ hu =>
    have hvalid : Nat.isValidChar u.toNat := by
      rw [hu]
      exact c.valid
    have htrailing : ¬ isTrailingSurrogate u.toNat = true := by
      rw [isTrailingSurrogate_iff]
      unfold Nat.isValidChar at hvalid
      omega
    have hleading : ¬ isLeadingSurrogate u.toNat = true := by
      rw [isLeadingSurrogate_iff]
      unfold Nat.isValidChar at hvalid
      omega
    rw [bytes?.eq_def]
    simp only [if_neg htrailing, if_neg hleading]
    rw [hu, Char.ofNat_toNat]
  | @pair leading trailing _ h h' ht ht' hc =>
    have hleading := isLeadingSurrogate_iff.2 ⟨h, h'⟩
    have htrailing := isTrailingSurrogate_iff.2 ⟨ht, ht'⟩
    have hno : ¬ isTrailingSurrogate leading.toNat = true := by
      rw [isTrailingSurrogate_iff]
      omega
    have hpair : pairChar leading.toNat trailing.toNat = c := by
      rw [← Char.ofNat_toNat (pairChar _ _), toNat_pairChar hleading htrailing, ← hc, Char.ofNat_toNat]
    rw [bytes?, if_neg hno, if_pos hleading, if_pos htrailing, hpair]

/-- Pieces start with a plain byte, or with an escape. -/
theorem bytes?_cases (h : bytes? ps = some bytes) :
    ps = [] ∧ bytes = [] ∨
      (∃ b rest tail, ps = .plain b :: rest ∧ bytes = b :: tail ∧ bytes? rest = some tail) ∨
      ∃ c rest tail, Escaped c ps rest ∧ bytes = String.utf8EncodeChar c ++ tail ∧ bytes? rest = some tail := by
  have behind {c : Char} {rest : List Piece} (hescaped : Escaped c ps rest) :
      ∃ c rest tail, Escaped c ps rest ∧ bytes = String.utf8EncodeChar c ++ tail ∧ bytes? rest = some tail := by
    rw [bytes?_of_escaped hescaped] at h
    obtain ⟨tail, htail, rfl⟩ := Option.map_eq_some_iff.1 h
    exact ⟨c, rest, tail, hescaped, rfl, htail⟩
  fun_cases bytes? ps with
  | case1 =>
    cases h
    exact .inl ⟨rfl, rfl⟩
  | case2 b rest =>
    obtain ⟨tail, htail, rfl⟩ := Option.map_eq_some_iff.1 h
    exact .inr (.inl ⟨b, rest, tail, rfl, rfl, htail⟩)
  | case3 c rest => exact .inr (.inr (behind .short))
  | case4 u rest hu =>
    rw [bytes?.eq_def] at h
    simp only [if_pos hu, reduceCtorEq] at h
  | case5 u hu hleading v rest hv =>
    obtain ⟨h₁, h₂⟩ := isLeadingSurrogate_iff.1 hleading
    obtain ⟨h₃, h₄⟩ := isTrailingSurrogate_iff.1 hv
    exact .inr (.inr (behind (.pair h₁ h₂ h₃ h₄ (toNat_pairChar hleading hv))))
  | case6 u hu hleading v rest hv =>
    rw [bytes?, if_neg hu, if_pos hleading, if_neg hv] at h
    cases h
  | case7 u rest hu hleading hno =>
    rw [bytes?, if_neg hu, if_pos hleading] at h
    · cases h
    · exact hno
  | case8 u rest hu hleading =>
    exact .inr (.inr (behind (.unit (toNat_ofNat_of_isValidChar (isValidChar_toNat hu hleading)).symm)))

theorem bytes?_plain_append (bs : List UInt8) (ps : List Piece) : bytes? (bs.map .plain ++ ps) = (bytes? ps).map (bs ++ ·) := by
  induction bs with
  | nil =>
    show bytes? ps = (bytes? ps).map fun bytes => bytes
    rw [Option.map_id']
  | cons b bs ih =>
    show (bytes? (bs.map .plain ++ ps)).map (b :: ·) = _
    rw [ih, Option.map_map]
    rfl

/-- Bytes that are not the first of a character are plain. -/
theorem exists_plain (hbs : ∀ b ∈ bs, ¬ b.IsUTF8FirstByte) (h : bytes? ps = some (bs ++ tail)) :
    ∃ rest, ps = bs.map .plain ++ rest ∧ bytes? rest = some tail := by
  induction bs generalizing ps with
  | nil => exact ⟨ps, rfl, h⟩
  | cons b bs ih =>
    rcases bytes?_cases h with ⟨-, hnil⟩ | ⟨b', rest, tail', rfl, hcons, hrest⟩ | ⟨c, rest, tail', -, hc, -⟩
    · cases hnil
    · cases hcons
      obtain ⟨rest', rfl, htail⟩ := ih (fun b hb => hbs b (List.mem_cons_of_mem _ hb)) hrest
      exact ⟨rest', rfl, htail⟩
    · obtain ⟨b', bs', hc', hfirst, -⟩ := utf8EncodeChar_eq_cons c
      rw [hc'] at hc
      obtain rfl : b = b' := (List.cons.inj hc).1
      exact absurd hfirst (hbs b List.mem_cons_self)

/-- Pieces whose bytes are those of characters spell them, and only such pieces do. -/
theorem bytes?_eq_some_iff : bytes? ps = some (cs.flatMap String.utf8EncodeChar) ↔ Spells ps cs := by
  constructor
  · intro h
    induction cs generalizing ps with
    | nil =>
      rcases bytes?_cases h with ⟨rfl, -⟩ | ⟨b, rest, tail, -, hcons, -⟩ | ⟨c, rest, tail, -, hc, -⟩
      · exact .nil
      · cases hcons
      · have := (List.append_eq_nil_iff.1 hc.symm).1
        exact absurd this String.utf8EncodeChar_ne_nil
    | cons c cs ih =>
      rw [List.flatMap_cons] at h
      rcases bytes?_cases h with ⟨-, hnil⟩ | ⟨b, rest, tail, rfl, hcons, hrest⟩ | ⟨d, rest, tail, hescaped, hd, hrest⟩
      · exact absurd (List.append_eq_nil_iff.1 hnil).1 String.utf8EncodeChar_ne_nil
      · -- a plain first byte takes the other bytes of its character with it
        obtain ⟨b', bs, hc, -, hbs⟩ := utf8EncodeChar_eq_cons c
        rw [hc] at hcons
        cases hcons
        obtain ⟨rest', rfl, htail⟩ := exists_plain hbs hrest
        have hspells := Spells.plain c (ih htail)
        rwa [hc] at hspells
      · obtain ⟨rfl, rfl⟩ := utf8EncodeChar_append_inj hd
        exact .escaped hescaped (ih hrest)
  · intro h
    induction h with
    | nil => rfl
    | plain c _ ih => rw [bytes?_plain_append, ih, List.flatMap_cons, Option.map_some]
    | escaped hescaped _ ih => rw [bytes?_of_escaped hescaped, ih, List.flatMap_cons, Option.map_some]

theorem text?_eq_some_iff {t : String} : text? ps = some t ↔ Spells ps t.toList := by
  rw [← bytes?_eq_some_iff]
  unfold text?
  rw [Option.bind_eq_some_iff]
  constructor
  · intro h
    obtain ⟨bytes, hbytes, ht⟩ := h
    rw [hbytes, fromUTF8?_eq_some_iff.1 ht]
  · intro h
    exact ⟨_, h, fromUTF8?_eq_some_iff.2 rfl⟩

theorem spells_unique {s t : String} (hs : Spells ps s.toList) (ht : Spells ps t.toList) : s = t := by
  have hs := text?_eq_some_iff.2 hs
  rw [text?_eq_some_iff.2 ht] at hs
  cases hs
  rfl

/-- Pieces are a text or have a flaw. -/
theorem flaw_iff : Flaw ps ↔ text? ps = none := by
  have hnone (bytes : List UInt8) : String.fromUTF8? ⟨bytes.toArray⟩ = none ↔ ¬ ByteArray.IsValidUTF8 ⟨bytes.toArray⟩ := by
    unfold String.fromUTF8?
    split
    next h => simp [h]
    next h => simp [h]
  unfold text?
  rw [Option.bind_eq_none_iff]
  constructor
  · intro h bytes hbytes
    cases h with
    | loneSurrogate hnone' =>
      rw [hbytes] at hnone'
      cases hnone'
    | notUtf8 hbytes' hno =>
      rw [hbytes] at hbytes'
      cases hbytes'
      exact (hnone bytes).2 hno
  · intro h
    cases hbytes : bytes? ps with
    | none => exact .loneSurrogate hbytes
    | some bytes => exact .notUtf8 hbytes ((hnone bytes).1 (h bytes hbytes))

end Piece

end Calculator.Json
