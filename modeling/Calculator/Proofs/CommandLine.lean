/-
  Calculator.Proofs.CommandLine — all arguments, one after another.

  A reading holds back the use that it has read last, or waits for its value (`Holds`). So what is made of the
  arguments that are left are the uses spelled in them, behind the one that is held back (`run_eq_ok_iff`).

  Main statement: `parse_eq_ok_iff`.
-/

import Calculator.Proofs.CommandLine.Argument

namespace Calculator.CommandLine

namespace Reading

/-! ## All arguments -/

/-- The use that is held back, or the option that waits for its value. -/
inductive Holds : Option (Flag × Option String) → List Use → Option Flag → Prop
  | nothing : Holds none [] none
  | use {flag : Flag} {name value : String} {letter : Char} {use : String → Use} :
      Valued flag name letter use → Holds (some (flag, some value)) [use value] none
  | waiting {flag : Flag} {name : String} {letter : Char} {use : String → Use} :
      Valued flag name letter use → Holds (some (flag, none)) [] (some flag)

/-- The uses in the arguments that are left, the first one being the value of an option that waits for it. -/
inductive Behind : Option Flag → List String → List Use → Prop
  | all {arguments : List String} {uses : List Use} : Spelled arguments uses → Behind none arguments uses
  | value {flag : Flag} {name value : String} {letter : Char} {use : String → Use} {arguments : List String}
      {uses : List Use} :
      Valued flag name letter use → IsOperand value → Spelled arguments uses →
      Behind (some flag) (value :: arguments) (use value :: uses)

def finish (k : Reading) : Except Stop Options := do return (← k.resolve).options

section

variable {k k' : Reading} {held uses : List Use} {waiting : Option Flag} {argument : String} {arguments : List String}

theorem resolve_eq_ok_iff (hk : Holds k.pending held waiting) :
    k.resolve = .ok k' ↔ waiting = none ∧ k.After held none k' := by
  obtain ⟨options, pending, closed⟩ := k
  cases hk with
  | nothing => simp [resolve, After, settleAll_nil, eq_comm]
  | @use flag name value letter use hv =>
    have hresolve : resolve ⟨options, some (flag, some value), closed⟩ =
        (settle options flag (some value)).map fun options => ⟨options, none, closed⟩ := rfl
    rw [hresolve, map_eq_ok, After, settleAll_singleton (given_of_valued hv value)]
    simp [eq_comm]
  | waiting hv =>
    cases hv with
    | config => simp [resolve, settle, bind, Except.bind]
    | bind => simp [resolve, settle, bind, Except.bind]

theorem finish_eq_ok_iff (hk : Holds k.pending held waiting) {options : Options} :
    k.finish = .ok options ↔ waiting = none ∧ settleAll k.options held = .ok options := by
  rw [finish, bind_eq_ok]
  simp only [resolve_eq_ok_iff hk]
  constructor
  · intro h
    obtain ⟨_, ⟨hnone, options, h, rfl⟩, hend⟩ := h
    cases hend
    exact ⟨hnone, h⟩
  · intro h
    exact ⟨_, ⟨h.1, _, h.2, rfl⟩, rfl⟩

theorem closed_of_resolve (h : k.resolve = .ok k') : k'.closed = k.closed := by
  rw [resolve] at h
  split at h
  · cases h
    rfl
  · obtain ⟨options, -, h⟩ := bind_eq_ok.1 h
    cases h
    rfl

theorem holds_of_cluster {cs : List Char} (h : Cluster cs uses waiting) : Holds (waiting.map (·, none)) [] waiting := by
  induction h with
  | nil | equals | direct => exact .nothing
  | verbose _ ih => exact ih
  | waiting hv => exact .waiting hv

theorem holds_of_argument (h : Argument argument uses waiting) : Holds (waiting.map (·, none)) [] waiting := by
  cases h with
  | printConfig | verbose | equals => exact .nothing
  | waiting hv => exact .waiting hv
  | short h => exact holds_of_cluster h

theorem not_isOperand_of_argument (h : Argument argument uses waiting) : ¬ IsOperand argument ∧ argument ≠ "--" := by
  have hoption : ∃ c cs, argument.toList = '-' :: c :: cs ∧ (c = '-' → cs ≠ []) := by
    cases h with
    | printConfig | verbose => exact ⟨_, _, rfl, nofun⟩
    | waiting hv =>
      cases hv with
      | config | bind => exact ⟨_, _, rfl, nofun⟩
    | @equals flag name value letter use hv =>
      refine ⟨'-', name.toList ++ '=' :: value.toList, by simp, fun _ => ?_⟩
      exact List.append_ne_nil_of_right_ne_nil _ (List.cons_ne_nil _ _)
    | short h =>
      refine ⟨_, _, String.toList_ofList, fun hc => ?_⟩
      subst hc
      cases h with
      | waiting hv | equals hv | direct hv => cases hv
  obtain ⟨c, cs, harg, hcs⟩ := hoption
  refine ⟨fun hop => hop c cs harg, fun he => ?_⟩
  rw [he] at harg
  cases harg
  exact hcs rfl rfl

theorem not_spelled_of_operand (hop : IsOperand argument) : ¬ Spelled (argument :: arguments) uses := by
  intro h
  cases h with
  | closed => exact hop '-' [] rfl
  | whole hargument | behind hargument => exact (not_isOperand_of_argument hargument).1 hop

theorem behind_dashes_iff : Behind waiting ("--" :: arguments) uses ↔ waiting = none ∧ arguments = [] ∧ uses = [] := by
  constructor
  · intro h
    cases h with
    | all h =>
      cases h with
      | closed => exact ⟨rfl, rfl, rfl⟩
      | whole hargument | behind hargument => exact absurd rfl (not_isOperand_of_argument hargument).2
    | value hv hop => exact absurd rfl (hop '-' [])
  · intro h
    obtain ⟨rfl, rfl, rfl⟩ := h
    exact .all .closed

theorem valued_of_holds {pending : Option (Flag × Option String)} {flag : Flag} (h : Holds pending held (some flag)) :
    held = [] ∧ ∃ name letter use, Valued flag name letter use := by
  cases h with
  | waiting hv => exact ⟨rfl, _, _, _, hv⟩

theorem behind_cons_iff (hno : ¬ IsOperand argument) (hne : argument ≠ "--") : Behind waiting (argument :: arguments) uses ↔
    waiting = none ∧ ∃ front next back, Argument argument front next ∧ Behind next arguments back ∧ uses = front ++ back := by
  constructor
  · intro h
    cases h with
    | all h =>
      cases h with
      | closed => exact absurd rfl hne
      | whole hargument h => exact ⟨rfl, _, _, _, hargument, .all h, rfl⟩
      | behind hargument hv hop h => exact ⟨rfl, _, _, _, hargument, .value hv hop h, rfl⟩
    | value hv hop => exact absurd hop hno
  · intro h
    obtain ⟨rfl, front, next, back, hargument, h, rfl⟩ := h
    cases h with
    | all h => exact .all (.whole hargument h)
    | value hv hop h => exact .all (.behind hargument hv hop h)

/-- An option that is read takes the one before it, and then it is read like the first one. -/
theorem step_eq_ok_iff_resolve (hclosed : k.closed = false) {c : Char} {cs : List Char}
    (harg : argument.toList = '-' :: c :: cs) (hne : argument ≠ "--") :
    k.step argument = .ok k' ↔ ∃ between, k.resolve = .ok between ∧ between.step argument = .ok k' := by
  have hbetween {between : Reading} (h : k.resolve = .ok between) : between.closed = false :=
    (closed_of_resolve h).trans hclosed
  by_cases hc : c = '-'
  · subst hc
    rcases cs with _ | ⟨c, cs⟩
    · exact absurd (String.toList_injective harg) hne
    rw [step_long hclosed harg, long_eq_ok_iff_resolve]
    exact exists_congr fun between => and_congr_right fun h => by rw [step_long (hbetween h) harg]
  · rw [step_short hclosed hc harg, short_eq_ok_iff_resolve]
    exact exists_congr fun between => and_congr_right fun h => by rw [step_short (hbetween h) hc harg]

theorem step_option_iff (hclosed : k.closed = false) (hk : Holds k.pending held waiting) {c : Char} {cs : List Char}
    (harg : argument.toList = '-' :: c :: cs) (hne : argument ≠ "--") : k.step argument = .ok k' ↔
    waiting = none ∧ ∃ uses next, Argument argument uses next ∧ k.After (held ++ uses) next k' := by
  rw [step_eq_ok_iff_resolve hclosed harg hne]
  constructor
  · intro h
    obtain ⟨between, hresolve, hstep⟩ := h
    have hclosed := (closed_of_resolve hresolve).trans hclosed
    obtain ⟨uses, next, hargument, hafter⟩ := argument_of_step (pending_of_resolve hresolve) hclosed harg hne hstep
    obtain ⟨hnone, hbetween⟩ := (resolve_eq_ok_iff hk).1 hresolve
    exact ⟨hnone, uses, next, hargument, after_append_iff.2 ⟨between, hbetween, hafter⟩⟩
  · intro h
    obtain ⟨hnone, uses, next, hargument, hafter⟩ := h
    obtain ⟨between, hbetween, hafter⟩ := after_append_iff.1 hafter
    have hresolve := (resolve_eq_ok_iff hk).2 ⟨hnone, hbetween⟩
    have hclosed := (closed_of_resolve hresolve).trans hclosed
    exact ⟨between, hresolve, step_of_argument (pending_of_resolve hresolve) hclosed hargument hafter⟩

theorem step_operand_iff (hclosed : k.closed = false) (hk : Holds k.pending held waiting) (hop : IsOperand argument) :
    k.step argument = .ok k' ↔ ∃ flag, waiting = some flag ∧ k' = { k with pending := some (flag, some argument) } := by
  rw [step, hclosed, if_neg Bool.false_ne_true]
  split
  · next he => exact absurd he (hop _ _)
  · next he => exact absurd he (hop _ _)
  · next he => exact absurd he (hop _ _)
  · obtain ⟨options, pending, closed⟩ := k
    cases hk with
    | nothing => simp
    | use hv => simp
    | waiting hv => simp [eq_comm]

/-- Behind the two dashes nothing can be read, so they stand at the end. -/
theorem run_dashes_iff (hclosed : k.closed = false) (hk : Holds k.pending held waiting) {options : Options} :
    (k.step "--" >>= fun k => arguments.foldlM step k >>= finish) = .ok options ↔
      ∃ uses, Behind waiting ("--" :: arguments) uses ∧ settleAll k.options (held ++ uses) = .ok options := by
  have hstep : k.step "--" = .ok { k with closed := true } := by
    rw [step, hclosed]
    rfl
  rw [hstep, bind_eq_ok]
  simp only [Except.ok.injEq, exists_eq_left', behind_dashes_iff]
  rcases arguments with _ | ⟨argument, arguments⟩
  · rw [List.foldlM_nil, pure_bind, @finish_eq_ok_iff { k with closed := true } _ _ hk]
    simp [and_assoc]
  · rw [List.foldlM_cons]
    simp [step, bind, Except.bind]

theorem run_eq_ok_iff (hclosed : k.closed = false) (hk : Holds k.pending held waiting) {options : Options} :
    (arguments.foldlM step k >>= finish) = .ok options ↔
      ∃ uses, Behind waiting arguments uses ∧ settleAll k.options (held ++ uses) = .ok options := by
  induction arguments generalizing k held waiting with
  | nil =>
    rw [List.foldlM_nil, pure_bind, finish_eq_ok_iff hk]
    constructor
    · intro h
      obtain ⟨rfl, h⟩ := h
      exact ⟨[], .all .nil, by rwa [List.append_nil]⟩
    · intro h
      obtain ⟨uses, ⟨⟨⟩⟩, h⟩ := h
      rw [List.append_nil] at h
      exact ⟨rfl, h⟩
  | cons argument arguments ih =>
    rw [List.foldlM_cons, bind_assoc]
    by_cases hne : argument = "--"
    · subst hne
      exact run_dashes_iff hclosed hk
    rw [bind_eq_ok]
    by_cases hop : IsOperand argument
    · simp only [step_operand_iff hclosed hk hop]
      constructor
      · intro h
        obtain ⟨_, ⟨flag, rfl, rfl⟩, h⟩ := h
        obtain ⟨rfl, name, letter, use, hv⟩ := valued_of_holds hk
        obtain ⟨uses, ⟨h⟩, hsettle⟩ := (@ih ⟨k.options, some (_, some argument), k.closed⟩ _ _ hclosed (.use hv)).1 h
        exact ⟨_, .value hv hop h, hsettle⟩
      · intro h
        obtain ⟨uses, h, hsettle⟩ := h
        cases h with
        | all h => exact absurd h (not_spelled_of_operand hop)
        | value hv hop h =>
          obtain ⟨rfl, -⟩ := valued_of_holds hk
          exact ⟨_, ⟨_, rfl, rfl⟩,
            (@ih ⟨k.options, some (_, some argument), k.closed⟩ _ _ hclosed (.use hv)).2 ⟨_, .all h, hsettle⟩⟩
    obtain ⟨c, cs, harg⟩ : ∃ c cs, argument.toList = '-' :: c :: cs := by simpa [IsOperand] using hop
    simp only [step_option_iff hclosed hk harg hne, behind_cons_iff hop hne]
    constructor
    · intro h
      obtain ⟨_, ⟨hnone, front, next, hargument, between, hbetween, rfl⟩, h⟩ := h
      obtain ⟨back, h, hsettle⟩ := (@ih ⟨between, _, k.closed⟩ _ _ hclosed (holds_of_argument hargument)).1 h
      refine ⟨front ++ back, ⟨hnone, front, next, back, hargument, h, rfl⟩, ?_⟩
      rw [← List.append_assoc, settleAll_append, hbetween]
      exact hsettle
    · intro h
      obtain ⟨_, ⟨hnone, front, next, back, hargument, h, rfl⟩, hsettle⟩ := h
      rw [← List.append_assoc, settleAll_append] at hsettle
      obtain ⟨between, hbetween, hsettle⟩ := bind_eq_ok.1 hsettle
      exact ⟨_, ⟨hnone, front, next, hargument, between, hbetween, rfl⟩,
        (@ih ⟨between, _, k.closed⟩ _ _ hclosed (holds_of_argument hargument)).2 ⟨back, h, hsettle⟩⟩

end

end Reading

theorem parse_eq_ok_iff {arguments : List String} {options : Options} :
    parse arguments = .ok options ↔ ∃ uses, Spelled arguments uses ∧ Settles uses options := by
  have hparse : parse arguments = (arguments.foldlM Reading.step .initial >>= Reading.finish) := rfl
  rw [hparse, Reading.run_eq_ok_iff rfl .nothing]
  constructor
  · intro h
    obtain ⟨uses, ⟨h⟩, hsettle⟩ := h
    exact ⟨uses, h, settleAll_initial_eq_ok_iff.1 hsettle⟩
  · intro h
    obtain ⟨uses, h, hsettle⟩ := h
    exact ⟨uses, .all h, settleAll_initial_eq_ok_iff.2 hsettle⟩

end Calculator.CommandLine
