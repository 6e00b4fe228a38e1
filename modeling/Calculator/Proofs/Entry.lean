/-
  Calculator.Proofs.Entry — entries with keys, of which the last one of a key counts.

  The members of a JSON object and the values of settings are looked up in the same way: from the end.
  What is found stands in front of no other entry of its key (`lastEntry_eq_some_iff`).
-/

namespace Calculator

section

variable {α : Type} {entries : List (String × α)} {key : String} {x : α}

/-- Looked up from the end, an entry is found that no other one of its key stands behind. -/
theorem lastEntry_eq_some_iff :
    (entries.reverse.find? (·.1 == key)).map (·.2) = some x ↔
      ∃ front back, entries = front ++ (key, x) :: back ∧ ∀ entry ∈ back, entry.1 ≠ key := by
  rw [Option.map_eq_some_iff]
  constructor
  · intro h
    obtain ⟨⟨key', x'⟩, hfind, rfl⟩ := h
    obtain ⟨hkey, back, front, hentries, hback⟩ := List.find?_eq_some_iff_append.1 hfind
    obtain rfl : key' = key := beq_iff_eq.1 hkey
    refine ⟨front.reverse, back.reverse, ?_, fun entry hentry he => ?_⟩
    · rw [← List.reverse_reverse entries, hentries]
      simp
    · have := hback entry (List.mem_reverse.1 hentry)
      rw [he] at this
      simp at this
  · intro h
    obtain ⟨front, back, rfl, hback⟩ := h
    refine ⟨(key, x), List.find?_eq_some_iff_append.2 ⟨beq_self_eq_true key, back.reverse, front.reverse, ?_, ?_⟩, rfl⟩
    · simp
    · intro entry hentry
      have := hback entry (List.mem_reverse.1 hentry)
      simp [this]

theorem lastEntry_eq_none_iff :
    (entries.reverse.find? (·.1 == key)).map (·.2) = none ↔ ∀ entry ∈ entries, entry.1 ≠ key := by
  rw [Option.map_eq_none_iff, List.find?_eq_none]
  constructor
  · intro h entry hentry he
    exact h entry (List.mem_reverse.2 hentry) (beq_iff_eq.2 he)
  · intro h entry hentry he
    exact h entry (List.mem_reverse.1 hentry) (beq_iff_eq.1 he)

end

end Calculator
