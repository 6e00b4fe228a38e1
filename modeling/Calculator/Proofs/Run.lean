/-
  Calculator.Proofs.Run — runs of characters of one kind, and texts cut at a character.

  A run is the longest one at the front of a text if nothing of its kind stands behind it.
-/

namespace Calculator

variable {p : Char → Bool} {text run rest : List Char}

theorem takeWhile_eq_nil_of_head? (h : rest.head?.any p = false) : rest.takeWhile p = [] := by
  cases rest with
  | nil => rfl
  | cons c rest => exact List.takeWhile_cons_of_neg (by simpa using h)

theorem dropWhile_eq_self_of_head? (h : rest.head?.any p = false) : rest.dropWhile p = rest := by
  cases rest with
  | nil => rfl
  | cons c rest => exact List.dropWhile_cons_of_neg (by simpa using h)

theorem takeWhile_run_append (hr : ∀ c ∈ run, p c) (h : rest.head?.any p = false) : (run ++ rest).takeWhile p = run := by
  rw [List.takeWhile_append_of_pos hr, takeWhile_eq_nil_of_head? h, List.append_nil]

theorem dropWhile_run_append (hr : ∀ c ∈ run, p c) (h : rest.head?.any p = false) : (run ++ rest).dropWhile p = rest := by
  rw [List.dropWhile_append_of_pos hr, dropWhile_eq_self_of_head? h]

theorem takeWhile_append_of_head? (h : rest.head?.any p = false) : (text ++ rest).takeWhile p = text.takeWhile p := by
  induction text with
  | nil => exact takeWhile_eq_nil_of_head? h
  | cons c text ih => rw [List.cons_append, List.takeWhile_cons, List.takeWhile_cons, ih]

theorem dropWhile_append_of_head? (h : rest.head?.any p = false) : (text ++ rest).dropWhile p = text.dropWhile p ++ rest := by
  induction text with
  | nil => exact dropWhile_eq_self_of_head? h
  | cons c text ih =>
    rw [List.cons_append, List.dropWhile_cons, List.dropWhile_cons, ih]
    split
    · rfl
    · rfl

theorem head?_dropWhile (text : List Char) : (text.dropWhile p).head?.any p = false := by
  have := List.head?_dropWhile_not p text
  cases h : (text.dropWhile p).head? with
  | none => rfl
  | some c => simpa [h] using this

theorem of_mem_takeWhile : ∀ c ∈ text.takeWhile p, p c := List.all_eq_true.1 List.all_takeWhile

theorem not_mem_of_mem_splitOn {c : Char} {s part : List Char} (h : part ∈ s.splitOn c) : c ∉ part := by
  induction s generalizing part with
  | nil =>
    rw [List.splitOn_nil, List.mem_singleton] at h
    rw [h]
    exact List.not_mem_nil
  | cons d s ih =>
    rw [List.splitOn_cons_eq_if_modifyHead] at h
    split at h
    · rcases List.mem_cons.1 h with rfl | h
      · exact List.not_mem_nil
      · exact ih h
    · next hd =>
      obtain ⟨first, parts, hparts⟩ := List.exists_cons_of_ne_nil (List.splitOn_ne_nil c s)
      rw [hparts] at h ih
      rcases List.mem_cons.1 h with rfl | h
      · exact fun hmem => (List.mem_cons.1 hmem).elim (fun he => hd (by simp [he])) (ih List.mem_cons_self)
      · exact ih (List.mem_cons_of_mem _ h)

end Calculator
