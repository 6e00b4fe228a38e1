/-
  Calculator.Json.Text — strings, read from between quotes and written back.

  In a string a byte below 32 stands only escaped, and the bytes between the quotes,
  escapes undone, have to be UTF-8, which is looked at when the closing quote is reached.
  An escape of a code unit outside the surrogates is that character; a leading surrogate
  needs the escape of a trailing one right behind it, and the two are one character.
-/

import Calculator.Json.Reader

namespace Calculator.Json

def hexValue? (b : UInt8) : Option Nat :=
  let c := Char.ofUInt8 b
  if c.isDigit then some (c.toNat - '0'.toNat)
  else if 'a' ≤ c ∧ c ≤ 'f' then some (c.toNat - 'a'.toNat + 10)
  else if 'A' ≤ c ∧ c ≤ 'F' then some (c.toNat - 'A'.toNat + 10)
  else none

/-- Four hexadecimal digits, behind the `u` of an escape. -/
def codeUnit : Reader Nat where
  read
    | a :: b :: c :: d :: rest =>
      match hexValue? a, hexValue? b, hexValue? c, hexValue? d with
      | some a, some b, some c, some d => .ok (((a * 16 + b) * 16 + c) * 16 + d, rest)
      | _, _, _, _ => .error .illFormed
    | _ => .error .truncated
  shorter := by
    intro input value rest h
    split at h
    · split at h
      · cases h; simp; omega
      · cases h
    · cases h

def isLeadingSurrogate (unit : Nat) : Bool := 0xD800 ≤ unit && unit ≤ 0xDBFF

def isTrailingSurrogate (unit : Nat) : Bool := 0xDC00 ≤ unit && unit ≤ 0xDFFF

def pairChar (leading trailing : Nat) : Char :=
  Char.ofNat ((leading - 0xD800) * 0x400 + (trailing - 0xDC00) + 0x10000)

/-- The rest of an escape, behind `\u`: one code unit, or a pair of surrogates. -/
def escapedChar : Reader Char where
  read input :=
    match codeUnit.read input with
    | .error e => .error e
    | .ok (unit, rest) =>
      if isTrailingSurrogate unit then .error .illFormed
      else if isLeadingSurrogate unit then
        match expect ['\\', 'u'] rest with
        | .error e => .error e
        | .ok rest =>
          match codeUnit.read rest with
          | .error e => .error e
          | .ok (trailing, rest) =>
            if isTrailingSurrogate trailing then .ok (pairChar unit trailing, rest) else .error .illFormed
      else .ok (Char.ofNat unit, rest)
  shorter := by
    intro input value rest h
    split at h
    · cases h
    next hu =>
    have h1 := codeUnit.shorter hu
    split at h
    · cases h
    split at h
    · split at h
      · cases h
      next he =>
      have h2 := length_expect_le he
      split at h
      · cases h
      next ht =>
      have h3 := codeUnit.shorter ht
      split at h
      · simp only [Except.ok.injEq, Prod.mk.injEq] at h
        obtain ⟨-, rfl⟩ := h
        omega
      · cases h
    · cases h; exact h1

/-- What a letter behind a backslash stands for, `u` apart. -/
def shortEscape? : Char → Option Char
  | '"' => some '"'
  | '\\' => some '\\'
  | '/' => some '/'
  | 'b' => some '\x08'
  | 'f' => some '\x0c'
  | 'n' => some '\n'
  | 'r' => some '\r'
  | 't' => some '\t'
  | _ => none

/-- The bytes an escape stands for, behind its backslash. What follows `\u` is read with
`unicode`. -/
def escape (unicode : Reader (List UInt8)) : Reader (List UInt8) where
  read
    | [] => .error .truncated
    | b :: rest =>
      if Char.ofUInt8 b = 'u' then unicode.read rest
      else match shortEscape? (Char.ofUInt8 b) with
        | some c => .ok (String.utf8EncodeChar c, rest)
        | none => .error .illFormed
  shorter := by
    intro input value rest h
    split at h
    · cases h
    split at h
    · exact Nat.lt_succ_of_lt (unicode.shorter h)
    split at h
    · cases h; exact Nat.lt_succ_self _
    · cases h

/-- The bytes up to the closing quote, escapes undone, behind `done`, the bytes so far with
the last one first. -/
def bytesOnto (unicode : Reader (List UInt8)) (done : List UInt8) (input : List UInt8) :
    Except Fault (List UInt8 × List UInt8) :=
  match input with
  | [] => .error .truncated
  | b :: rest =>
    if Char.ofUInt8 b = '"' then .ok (done.reverse, rest)
    else if Char.ofUInt8 b = '\\' then
      match _h : (escape unicode).read rest with
      | .error e => .error e
      | .ok (bytes, rest) => bytesOnto unicode (bytes.reverseAux done) rest
    else if b < 0x20 then .error .illFormed
    else bytesOnto unicode (b :: done) rest
termination_by input.length
decreasing_by
  · exact Nat.lt_succ_of_lt ((escape unicode).shorter _h)
  · exact Nat.lt_succ_self _

def quotedBytes (unicode : Reader (List UInt8)) : Reader (List UInt8) where
  read := bytesOnto unicode []
  shorter := by
    intro input value rest h
    revert h
    generalize [] = done
    intro h
    fun_induction bytesOnto unicode done input with
    | case1 => cases h
    | case2 => cases h; exact Nat.lt_succ_self _
    | case3 => cases h
    | case4 done b input _ _ bytes rest' hr ih =>
      exact Nat.lt_succ_of_lt (Nat.lt_trans (ih h) ((escape unicode).shorter hr))
    | case5 => cases h
    | case6 done b input _ _ _ ih => exact Nat.lt_succ_of_lt (ih h)

def quoted : Reader String where
  read input :=
    match (quotedBytes (escapedChar.map String.utf8EncodeChar)).read input with
    | .error e => .error e
    | .ok (bytes, rest) =>
      match String.fromUTF8? ⟨bytes.toArray⟩ with
      | some s => .ok (s, rest)
      | none => .error .illFormed
  shorter := by
    intro input value rest h
    split at h
    · cases h
    next hb =>
    split at h
    · cases h; exact (quotedBytes _).shorter hb
    · cases h

/-- A string that is only passed over, behind its opening quote: its escapes need their
digits, but they may leave surrogates alone, and the bytes need not be UTF-8. -/
def skipQuoted : Reader Unit := (quotedBytes (codeUnit.map fun _ => [])).map fun _ => ()

/-! ## Writing -/

def quoteChar (c : Char) : List Char :=
  match c with
  | '"' => ['\\', '"']
  | '\\' => ['\\', '\\']
  | '\x08' => ['\\', 'b']
  | '\x0c' => ['\\', 'f']
  | '\n' => ['\\', 'n']
  | '\r' => ['\\', 'r']
  | '\t' => ['\\', 't']
  | c =>
    if c.toNat < 0x20 then
      ['\\', 'u', '0', '0', (c.toNat / 16).digitChar, (c.toNat % 16).digitChar]
    else [c]

/-- A string in quotes. Only the quote, the backslash and characters below 32 are escaped. -/
def quote (s : String) : String := "\"" ++ String.ofList (s.toList.flatMap quoteChar) ++ "\""

end Calculator.Json
