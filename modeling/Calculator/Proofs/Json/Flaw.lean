/-
  Calculator.Proofs.Json.Flaw — writings with a value and writings without.

  A writing has a value, or it has a flaw and is refused as ill-formed (`value_eq_ok_or_flaw`), and never
  both (`not_denotes_of_flaw`). An object has a value exactly if all of its members have one and a
  name (`isText_object_iff`).
-/

import Calculator.Proofs.Json.Value

namespace Calculator.Json

variable {input : List UInt8} {w : Writing} {depth : Nat}

/-! ## Flaws -/

theorem text?_eq_none_or (ps : List Piece) :
    (∃ t, orIllFormed (Piece.text? ps) = .ok t) ∨ orIllFormed (Piece.text? ps) = .error .illFormed ∧ Piece.Flaw ps := by
  rw [Piece.flaw_iff]
  cases Piece.text? ps with
  | none => exact .inr ⟨rfl, rfl⟩
  | some t => exact .inl ⟨t, rfl⟩

theorem memberValue_eq_ok_or_flaw {depth : Nat} {member : List Piece × Writing}
    (h : (∃ value, member.2.value depth = .ok value) ∨ member.2.value depth = .error .illFormed ∧ Flaw depth member.2) :
    (∃ named, Writing.memberValue depth member = .ok named) ∨
      Writing.memberValue depth member = .error .illFormed ∧ (Piece.Flaw member.1 ∨ Flaw depth member.2) := by
  show (∃ named, (orIllFormed (Piece.text? member.1) >>= fun name => _) = .ok named) ∨
    (orIllFormed (Piece.text? member.1) >>= fun name => _) = .error .illFormed ∧ _
  rcases text?_eq_none_or member.1 with ⟨name, hname⟩ | ⟨he, hflaw⟩
  · rw [hname]
    rcases h with ⟨value, hvalue⟩ | ⟨he, hflaw⟩
    · exact .inl ⟨(name, value), by rw [hvalue]; rfl⟩
    · exact .inr ⟨by rw [he]; rfl, .inr hflaw⟩
  · rw [he]
    exact .inr ⟨rfl, .inl hflaw⟩

/-- A writing has a value, or it has a flaw and is refused. -/
theorem value_eq_ok_or_flaw (depth : Nat) (w : Writing) :
    (∃ value, w.value depth = .ok value) ∨ w.value depth = .error .illFormed ∧ Flaw depth w := by
  induction depth using Nat.strongRecOn generalizing w with
  | ind depth ih =>
  cases w with
  | null => exact .inl ⟨.null, Writing.value_null⟩
  | bool b => exact .inl ⟨.bool b, Writing.value_bool⟩
  | number n =>
    rw [Writing.value_number]
    cases hn : n.value? with
    | none =>
      refine .inr ⟨rfl, .outOfRange fun x hx => ?_⟩
      rw [Numeral.value?_eq_some_iff.2 hx] at hn
      cases hn
    | some value => exact .inl ⟨.number value, rfl⟩
  | text ps =>
    rw [Writing.value_text]
    rcases text?_eq_none_or ps with ⟨t, ht⟩ | ⟨he, hflaw⟩
    · rw [ht]
      exact .inl ⟨.text t, rfl⟩
    · rw [he]
      exact .inr ⟨rfl, .text hflaw⟩
  | array items =>
    cases depth with
    | zero => exact .inr ⟨rfl, .deepArray⟩
    | succ depth =>
      rw [Writing.value_array]
      rcases mapM_cases fun w (_ : w ∈ items) => ih depth (Nat.lt_succ_self _) w with ⟨values, hvalues⟩ | ⟨he, w, hw, hflaw⟩
      · rw [hvalues]
        exact .inl ⟨.array values, rfl⟩
      · rw [he]
        exact .inr ⟨rfl, .item hw hflaw⟩
  | object members =>
    cases depth with
    | zero => exact .inr ⟨rfl, .deepObject⟩
    | succ depth =>
      rw [Writing.value_object]
      rcases mapM_cases fun member (_ : member ∈ members) =>
        memberValue_eq_ok_or_flaw (ih depth (Nat.lt_succ_self _) member.2) with ⟨values, hvalues⟩ | ⟨he, member, hmem, hflaw⟩
      · rw [hvalues]
        exact .inl ⟨.object values, rfl⟩
      · rw [he]
        rcases hflaw with hflaw | hflaw
        · exact .inr ⟨rfl, .name hmem hflaw⟩
        · exact .inr ⟨rfl, .member hmem hflaw⟩

theorem exists_mem_zip {α β : Type} {xs : List α} {ys : List β} {x : α} (hlength : xs.length = ys.length) (hx : x ∈ xs) :
    ∃ y, (x, y) ∈ xs.zip ys := by
  obtain ⟨i, hi, rfl⟩ := List.getElem_of_mem hx
  have hi' : i < (xs.zip ys).length := by
    rw [List.length_zip]
    omega
  refine ⟨ys[i], ?_⟩
  rw [← List.getElem_zip (h := hi')]
  exact List.getElem_mem hi'

/-- What has a flaw has no value. -/
theorem not_denotes_of_flaw (h : Flaw depth w) : ∀ value, ¬ w.Denotes depth value := by
  induction h with
  | outOfRange hno =>
    intro value h
    cases h with
    | number hn => exact hno _ hn
  | text hflaw =>
    intro value h
    cases h with
    | text hspells =>
      rw [Piece.flaw_iff, Piece.text?_eq_some_iff.2 hspells] at hflaw
      cases hflaw
  | deepArray | deepObject =>
    intro value h
    cases h
  | item hw _ ih =>
    intro value h
    cases h with
    | array hlength hitems =>
      obtain ⟨value, hvalue⟩ := exists_mem_zip hlength hw
      exact ih value (hitems _ hvalue)
  | name hmember hflaw =>
    intro value h
    cases h with
    | object hlength hnames _ =>
      obtain ⟨named, hnamed⟩ := exists_mem_zip hlength hmember
      rw [Piece.flaw_iff, Piece.text?_eq_some_iff.2 (hnames _ hnamed)] at hflaw
      cases hflaw
  | member hmember _ ih =>
    intro value h
    cases h with
    | object hlength _ hvalues =>
      obtain ⟨named, hnamed⟩ := exists_mem_zip hlength hmember
      exact ih named.2 (hvalues _ hnamed)

/-! ## Texts of objects -/

theorem isText_object_iff {members : List (String × Json)} :
    IsText input (.object members) ↔
      ∃ written rest, Writing.Written (.object written) input rest ∧ Blanks rest [] ∧
        written.mapM (Writing.memberValue 126) = .ok members := by
  have hobject (written : List (List Piece × Writing)) :
      (Writing.object written).Denotes 127 (.object members) ↔ written.mapM (Writing.memberValue 126) = .ok members := by
    rw [← Writing.value_eq_ok_iff, Writing.value_object, map_eq_ok]
    constructor
    · intro h
      obtain ⟨members, hmembers, heq⟩ := h
      cases heq
      exact hmembers
    · intro h
      exact ⟨members, h, rfl⟩
  constructor
  · intro h
    obtain ⟨w, rest, hw, hblanks, hvalue⟩ := h
    cases w with
    | object written => exact ⟨written, rest, hw, hblanks, (hobject written).1 hvalue⟩
    | null | bool | number | text | array => cases hvalue
  · intro h
    obtain ⟨written, rest, hw, hblanks, hvalues⟩ := h
    exact ⟨.object written, rest, hw, hblanks, (hobject written).2 hvalues⟩

theorem value_eq_text_iff {t : String} : w.value depth = .ok (.text t) ↔ ∃ ps, w = .text ps ∧ Spells ps t.toList := by
  rw [Writing.value_eq_ok_iff]
  constructor
  · intro h
    cases h with
    | text hspells => exact ⟨_, rfl, hspells⟩
  · intro h
    obtain ⟨ps, rfl, hspells⟩ := h
    exact .text hspells

end Calculator.Json
