/-
  Calculator.Proofs.Except — results in a row, whatever the errors are.

  Two steps are told apart by what the first one comes to (`bind_eq_ok`, `bind_eq_error`), and a list of
  results is one for each item (`mapM_eq_ok_iff`).
-/

namespace Calculator

variable {ε α β : Type} {x : Except ε α} {b : β} {e : ε}

theorem bind_eq_ok {f : α → Except ε β} : (x >>= f) = .ok b ↔ ∃ a, x = .ok a ∧ f a = .ok b := by
  cases x with
  | error e =>
    constructor
    · intro h
      cases h
    · intro h
      obtain ⟨_, h, -⟩ := h
      cases h
  | ok a =>
    constructor
    · intro h
      exact ⟨a, rfl, h⟩
    · intro h
      obtain ⟨_, ha, h⟩ := h
      cases ha
      exact h

theorem bind_eq_error {f : α → Except ε β} : (x >>= f) = .error e ↔ x = .error e ∨ ∃ a, x = .ok a ∧ f a = .error e := by
  cases x with
  | error e' =>
    constructor
    · intro h
      cases h
      exact .inl rfl
    · intro h
      rcases h with h | ⟨_, h, -⟩
      · cases h
        rfl
      · cases h
  | ok a =>
    constructor
    · intro h
      exact .inr ⟨a, rfl, h⟩
    · intro h
      rcases h with h | ⟨_, ha, h⟩
      · cases h
      · cases ha
        exact h

theorem map_eq_ok {f : α → β} : x.map f = .ok b ↔ ∃ a, x = .ok a ∧ f a = b := by
  cases x with
  | error e => simp [Except.map]
  | ok a => simp [Except.map]

theorem map_eq_error {f : α → β} : x.map f = .error e ↔ x = .error e := by
  cases x with
  | error e' => simp [Except.map]
  | ok a => simp [Except.map]

theorem eq_ok_of_toOption {r : Except ε α} {a : α} (h : r.toOption = some a) : r = .ok a := by
  cases r with
  | error e => cases h
  | ok x =>
    cases h
    rfl

/-! ## Lists of results -/

section

variable {ω : Type} {f : ω → Except ε β} {y : β} {x : ω} {xs : List ω} {ys zs : List β}

theorem mapM_cases {p : ω → Prop}
    (hf : ∀ x ∈ xs, (∃ y, f x = .ok y) ∨ f x = .error e ∧ p x) :
    (∃ ys, xs.mapM f = .ok ys) ∨ xs.mapM f = .error e ∧ ∃ x ∈ xs, p x := by
  induction xs with
  | nil => exact .inl ⟨[], rfl⟩
  | cons x xs ih =>
    rw [List.mapM_cons]
    rcases hf x List.mem_cons_self with ⟨y, hy⟩ | ⟨he, hp⟩
    · rw [hy]
      rcases ih fun x hx => hf x (List.mem_cons_of_mem _ hx) with ⟨ys, hys⟩ | ⟨he, x', hx', hp⟩
      · rw [hys]
        exact .inl ⟨y :: ys, rfl⟩
      · rw [he]
        exact .inr ⟨rfl, x', List.mem_cons_of_mem _ hx', hp⟩
    · rw [he]
      exact .inr ⟨rfl, x, List.mem_cons_self, hp⟩

theorem mapM_cons_eq_ok_iff : (x :: xs).mapM f = .ok zs ↔ ∃ y ys, zs = y :: ys ∧ f x = .ok y ∧ xs.mapM f = .ok ys := by
  rw [List.mapM_cons]
  constructor
  · intro h
    obtain ⟨y, hx, h⟩ := bind_eq_ok.1 h
    obtain ⟨ys, hxs, h⟩ := bind_eq_ok.1 h
    cases h
    exact ⟨y, ys, rfl, hx, hxs⟩
  · intro h
    obtain ⟨y, ys, rfl, hx, hxs⟩ := h
    rw [hx, hxs]
    rfl

/-- A list of results is one for each item, in their order. -/
theorem mapM_eq_ok_iff : xs.mapM f = .ok ys ↔ xs.length = ys.length ∧ ∀ pair ∈ xs.zip ys, f pair.1 = .ok pair.2 := by
  induction xs generalizing ys with
  | nil =>
    cases ys with
    | nil => exact ⟨fun _ => ⟨rfl, nofun⟩, fun _ => rfl⟩
    | cons y ys => exact ⟨nofun, fun h => by cases h.1⟩
  | cons x xs ih =>
    rw [mapM_cons_eq_ok_iff]
    constructor
    · intro h
      obtain ⟨y, ys, rfl, hx, hxs⟩ := h
      obtain ⟨hlength, hpairs⟩ := ih.1 hxs
      refine ⟨congrArg (· + 1) hlength, fun pair hpair => ?_⟩
      rcases List.mem_cons.1 hpair with rfl | hpair
      · exact hx
      · exact hpairs pair hpair
    · intro h
      obtain ⟨hlength, hpairs⟩ := h
      cases ys with
      | nil => cases hlength
      | cons y ys =>
        have hrest : ∀ pair ∈ xs.zip ys, f pair.1 = .ok pair.2 := fun pair hpair => hpairs pair (List.mem_cons_of_mem _ hpair)
        exact ⟨y, ys, rfl, hpairs (x, y) List.mem_cons_self, ih.2 ⟨Nat.succ.inj hlength, hrest⟩⟩

theorem exists_mapM_eq_ok (h : ∀ x ∈ xs, ∃ y, f x = .ok y) : ∃ ys, xs.mapM f = .ok ys := by
  induction xs with
  | nil => exact ⟨[], rfl⟩
  | cons x xs ih =>
    obtain ⟨y, hy⟩ := h x List.mem_cons_self
    obtain ⟨ys, hys⟩ := ih fun x hx => h x (List.mem_cons_of_mem _ hx)
    exact ⟨y :: ys, mapM_cons_eq_ok_iff.2 ⟨y, ys, rfl, hy, hys⟩⟩

theorem exists_of_mapM_eq_ok (h : xs.mapM f = .ok ys) : ∀ x ∈ xs, ∃ y ∈ ys, f x = .ok y := by
  induction xs generalizing ys with
  | nil => exact nofun
  | cons x xs ih =>
    obtain ⟨y, ys, rfl, hx, hxs⟩ := mapM_cons_eq_ok_iff.1 h
    intro x' hx'
    rcases List.mem_cons.1 hx' with rfl | hx'
    · exact ⟨y, List.mem_cons_self, hx⟩
    · obtain ⟨y', hy', hx'⟩ := ih hxs x' hx'
      exact ⟨y', List.mem_cons_of_mem _ hy', hx'⟩

theorem exists_mem_of_mapM_eq_ok (h : xs.mapM f = .ok ys) : ∀ y ∈ ys, ∃ x ∈ xs, f x = .ok y := by
  induction xs generalizing ys with
  | nil =>
    cases h
    exact nofun
  | cons x xs ih =>
    obtain ⟨y, ys, rfl, hx, hxs⟩ := mapM_cons_eq_ok_iff.1 h
    intro y' hy'
    rcases List.mem_cons.1 hy' with rfl | hy'
    · exact ⟨x, List.mem_cons_self, hx⟩
    · obtain ⟨x', hx', hy'⟩ := ih hxs y' hy'
      exact ⟨x', List.mem_cons_of_mem _ hx', hy'⟩

/-- Around an item, what is made of a list is made of its parts. -/
theorem mapM_append_eq_ok {before after : List ω} (h : (before ++ x :: after).mapM f = .ok zs) :
    ∃ front y behind, zs = front ++ y :: behind ∧ before.mapM f = .ok front ∧ f x = .ok y ∧ after.mapM f = .ok behind := by
  induction before generalizing zs with
  | nil =>
    obtain ⟨y, ys, rfl, hx, hxs⟩ := mapM_cons_eq_ok_iff.1 h
    exact ⟨[], y, ys, rfl, rfl, hx, hxs⟩
  | cons x' before ih =>
    obtain ⟨y', ys, rfl, hx', hxs⟩ := mapM_cons_eq_ok_iff.1 h
    obtain ⟨front, y, behind, rfl, hfront, hx, hbehind⟩ := ih hxs
    exact ⟨y' :: front, y, behind, rfl, mapM_cons_eq_ok_iff.2 ⟨y', front, rfl, hx', hfront⟩, hx, hbehind⟩

theorem mapM_eq_ok_append {front behind : List β} (h : xs.mapM f = .ok (front ++ y :: behind)) :
    ∃ before x after, xs = before ++ x :: after ∧ before.mapM f = .ok front ∧ f x = .ok y ∧ after.mapM f = .ok behind := by
  induction front generalizing xs with
  | nil =>
    cases xs with
    | nil => cases h
    | cons x xs =>
      obtain ⟨_, _, heq, hx, hxs⟩ := mapM_cons_eq_ok_iff.1 h
      cases heq
      exact ⟨[], x, xs, rfl, rfl, hx, hxs⟩
  | cons y' front ih =>
    cases xs with
    | nil => cases h
    | cons x' xs =>
      obtain ⟨_, _, heq, hx', hxs⟩ := mapM_cons_eq_ok_iff.1 h
      cases heq
      obtain ⟨before, x, after, rfl, hbefore, hx, hafter⟩ := ih hxs
      exact ⟨x' :: before, x, after, rfl, mapM_cons_eq_ok_iff.2 ⟨y', front, rfl, hx', hbefore⟩, hx, hafter⟩

end

end Calculator
