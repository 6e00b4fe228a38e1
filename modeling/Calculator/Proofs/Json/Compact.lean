/-
  Calculator.Proofs.Json.Compact — objects of one member, as they are written.

  What needs no escape stands in quotes as it is (`quote_of_isPlainText`). That is so of the results of
  calculations: digits, a point and a sign, or the names of what is not finite (`isPlainText_twoDecimals`).
-/

import Calculator.Binary64.Decimal
import Calculator.Json.Compact

namespace Calculator.Json

def IsPlainText (s : String) : Prop := ∀ c ∈ s.toList, quoteChar c = [c]

instance (s : String) : Decidable (IsPlainText s) := List.decidableBAll (fun c => quoteChar c = [c]) s.toList

theorem IsPlainText.append {s t : String} (hs : IsPlainText s) (ht : IsPlainText t) : IsPlainText (s ++ t) := by
  intro c hc
  rw [String.toList_append, List.mem_append] at hc
  rcases hc with hc | hc
  · exact hs c hc
  · exact ht c hc

theorem quote_of_isPlainText {s : String} (h : IsPlainText s) : quote s = "\"" ++ s ++ "\"" := by
  have hsame : s.toList.flatMap quoteChar = s.toList := by
    rw [List.flatMap_def, List.map_congr_left h, ← List.flatMap_def, List.flatMap_singleton']
  rw [quote, hsame, String.ofList_toList]

theorem compact_member (name value : String) :
    compact (.object [(name, .text value)]) = "\x7b" ++ (quote name ++ ":" ++ quote value) ++ "\x7d" := by
  simp [compact, compactMembers, canonical, keepLast, joined, memberText]

/-! ## Results -/

theorem quoteChar_of_isDigit {c : Char} (h : c.isDigit = true) : quoteChar c = [c] := by
  have hcode : 48 ≤ c.toNat := by
    simp only [Char.isDigit, Bool.and_eq_true, decide_eq_true_eq] at h
    exact h.1
  unfold quoteChar
  split
  · cases h
  · cases h
  · cases h
  · cases h
  · cases h
  · cases h
  · cases h
  · exact if_neg (by omega)

theorem isPlainText_repr (n : Nat) : IsPlainText n.repr := by
  intro c hc
  rw [Nat.toList_repr] at hc
  exact quoteChar_of_isDigit (Nat.isDigit_of_mem_toDigits (by decide) (by decide) hc)

theorem isPlainText_twoDecimals (x : Binary64) : IsPlainText x.twoDecimals := by
  have hminus (negative : Bool) : IsPlainText (Binary64.twoDecimals.minus negative) := by
    cases negative with
    | true => decide
    | false => decide
  cases x with
  | nan => decide
  | infinity negative => exact (hminus negative).append (by decide)
  | finite negative units _ =>
    refine (hminus negative).append ?_
    have hpoint : IsPlainText "." := by decide
    exact (((isPlainText_repr _).append hpoint).append (isPlainText_repr _)).append (isPlainText_repr _)

end Calculator.Json
