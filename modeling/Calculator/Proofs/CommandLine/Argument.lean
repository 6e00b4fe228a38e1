/-
  Calculator.Proofs.CommandLine.Argument — what arguments ask for, and one of them at a time.

  `Spelled` is the grammar of the arguments: which options are used, in their order and each with its value, however
  an argument is put together. `Settles` tells what a list of uses comes to: an option with a value is used once at
  most, and each use of `--verbose` counts (`settleAll_initial_eq_ok_iff`).

  An option that is read takes the one before it first. Behind a reading that has none before it, the arguments that
  succeed are those of the grammar (`argument_of_step`, `step_of_argument`).
-/

import Calculator.CommandLine
import Calculator.Proofs.Except

namespace Calculator.CommandLine

/-! ## The grammar -/

inductive Use where
  | config (path : String)
  | bind (address : String)
  | printConfig
  | verbose
  deriving DecidableEq

/-- The options with a value: their two names and the uses they make. -/
inductive Valued : Flag → String → Char → (String → Use) → Prop
  | config : Valued .config "config" 'c' .config
  | bind : Valued .bind "bind" 'b' .bind

theorem Valued.unique {flag flag' : Flag} {name name' : String} {letter : Char} {use use' : String → Use}
    (hv : Valued flag name letter use) (hv' : Valued flag' name' letter use') : flag = flag' ∧ use = use' := by
  cases hv <;> cases hv' <;> exact ⟨rfl, rfl⟩

/-- The letters behind a dash: the uses in them, and the option that waits for its value. -/
inductive Cluster : List Char → List Use → Option Flag → Prop
  | nil : Cluster [] [] none
  | verbose {cs : List Char} {uses : List Use} {waiting : Option Flag} :
      Cluster cs uses waiting → Cluster ('v' :: cs) (.verbose :: uses) waiting
  | waiting {flag : Flag} {name : String} {letter : Char} {use : String → Use} :
      Valued flag name letter use → Cluster [letter] [] (some flag)
  | equals {flag : Flag} {name : String} {letter : Char} {use : String → Use} {value : List Char} :
      Valued flag name letter use → Cluster (letter :: '=' :: value) [use (.ofList value)] none
  | direct {flag : Flag} {name : String} {letter c : Char} {use : String → Use} {value : List Char} :
      Valued flag name letter use → c ≠ '=' → Cluster (letter :: c :: value) [use (.ofList (c :: value))] none

inductive Argument : String → List Use → Option Flag → Prop
  | printConfig : Argument "--print-config" [.printConfig] none
  | verbose : Argument "--verbose" [.verbose] none
  | waiting {flag : Flag} {name : String} {letter : Char} {use : String → Use} :
      Valued flag name letter use → Argument ("--" ++ name) [] (some flag)
  | equals {flag : Flag} {name value : String} {letter : Char} {use : String → Use} :
      Valued flag name letter use → Argument ("--" ++ name ++ "=" ++ value) [use value] none
  | short {c : Char} {cs : List Char} {uses : List Use} {waiting : Option Flag} :
      Cluster (c :: cs) uses waiting → Argument (.ofList ('-' :: c :: cs)) uses waiting

/-- The argument is no option: nothing stands behind a dash at its front. -/
def IsOperand (argument : String) : Prop := ∀ c rest, argument.toList ≠ '-' :: c :: rest

inductive Spelled : List String → List Use → Prop
  | nil : Spelled [] []
  | closed : Spelled ["--"] []
  | whole {argument : String} {arguments : List String} {uses uses' : List Use} :
      Argument argument uses none → Spelled arguments uses' → Spelled (argument :: arguments) (uses ++ uses')
  | behind {argument value name : String} {arguments : List String} {uses uses' : List Use} {flag : Flag} {letter : Char}
      {use : String → Use} :
      Argument argument uses (some flag) → Valued flag name letter use → IsOperand value → Spelled arguments uses' →
      Spelled (argument :: value :: arguments) (uses ++ use value :: uses')

def Use.path? : Use → Option String
  | config path => some path
  | _ => none

def Use.address? : Use → Option String
  | bind address => some address
  | _ => none

/-- What the uses come to. A path may not be empty. -/
structure Settles (uses : List Use) (options : Options) : Prop where
  config : uses.filterMap Use.path? = options.config.toList
  config_ne : options.config ≠ some ""
  bind : uses.filterMap Use.address? = options.bind.toList
  printConfig : uses.count .printConfig = options.printConfig.toNat
  verbosity : options.verbosity = min 255 (uses.count .verbose)

/-! ## Uses -/

def Use.given : Use → Flag × Option String
  | config path => (.config, some path)
  | bind address => (.bind, some address)
  | printConfig => (.printConfig, none)
  | verbose => (.verbose, none)

def settleAll (options : Options) (uses : List Use) : Except Stop Options :=
  uses.foldlM (fun options use => settle options use.given.1 use.given.2) options

section

variable {options options' : Options} {use : Use} {uses uses' : List Use}

theorem settleAll_nil : settleAll options [] = .ok options := rfl

theorem settleAll_cons :
    settleAll options (use :: uses) = (settle options use.given.1 use.given.2 >>= fun options => settleAll options uses) :=
  List.foldlM_cons

theorem settleAll_singleton {flag : Flag} {value : Option String} (h : use.given = (flag, value)) :
    settleAll options [use] = settle options flag value := by
  simp [settleAll, h]

theorem settleAll_append :
    settleAll options (uses ++ uses') = (settleAll options uses >>= fun options => settleAll options uses') :=
  List.foldlM_append

/-- What uses come to on top of options that were settled before. -/
structure Adds (options : Options) (uses : List Use) (options' : Options) : Prop where
  config : options.config.toList ++ uses.filterMap Use.path? = options'.config.toList
  config_ne : options'.config ≠ some ""
  bind : options.bind.toList ++ uses.filterMap Use.address? = options'.bind.toList
  printConfig : options.printConfig.toNat + uses.count .printConfig = options'.printConfig.toNat
  verbosity : options'.verbosity = min 255 (options.verbosity + uses.count .verbose)

theorem toList_append_cons_eq {value value' : Option String} {s : String} {rest : List String} :
    value.toList ++ s :: rest = value'.toList ↔ value = none ∧ rest = [] ∧ value' = some s := by
  rcases value with _ | v
  · rcases value' with _ | v'
    · simp
    · simp [eq_comm, and_comm]
  · rcases value' with _ | v'
    · simp
    · simp

theorem toList_injective {value value' : Option String} (h : value.toList = value'.toList) : value = value' := by
  cases value with
  | none =>
    cases value' with
    | none => rfl
    | some v' => cases h
  | some v =>
    cases value' with
    | none => cases h
    | some v' => rw [(List.cons.inj h).1]

theorem settle_config_eq_ok_iff {path : String} : settle options .config (some path) = .ok options' ↔
    options.config = none ∧ path ≠ "" ∧ options' = { options with config := some path } := by
  rw [settle]
  split
  · next h => simp [Option.isSome_iff_ne_none.1 h]
  next h =>
  rw [Option.not_isSome_iff_eq_none] at h
  split
  · next hpath => simp [hpath]
  · next hpath => simp [h, hpath, eq_comm]

theorem settle_bind_eq_ok_iff {address : String} : settle options .bind (some address) = .ok options' ↔
    options.bind = none ∧ options' = { options with bind := some address } := by
  rw [settle]
  split
  · next h => simp [Option.isSome_iff_ne_none.1 h]
  · next h => simp [Option.not_isSome_iff_eq_none.1 h, eq_comm]

theorem settle_printConfig_eq_ok_iff : settle options .printConfig none = .ok options' ↔
    options.printConfig = false ∧ options' = { options with printConfig := true } := by
  rw [settle]
  split
  · next h => simp [h]
  · next h => simp [h, eq_comm]

/-- What one use adds, and then the others. -/
theorem adds_cons_iff : Adds options (use :: uses) options' ↔
    ∃ between, settle options use.given.1 use.given.2 = .ok between ∧ Adds between uses options' := by
  cases use with
  | config path =>
    simp only [Use.given, settle_config_eq_ok_iff]
    constructor
    · intro h
      have hconfig : options.config.toList ++ path :: uses.filterMap Use.path? = options'.config.toList := h.config
      obtain ⟨hnone, hrest, hsome⟩ := toList_append_cons_eq.1 hconfig
      have hne : path ≠ "" := fun he => h.config_ne (by rw [hsome, he])
      exact ⟨_, ⟨hnone, hne, rfl⟩, by simp [hrest, hsome], h.config_ne, h.bind, h.printConfig, h.verbosity⟩
    · intro h
      obtain ⟨_, ⟨hnone, hne, rfl⟩, h⟩ := h
      have hconfig := h.config
      refine ⟨?_, h.config_ne, h.bind, h.printConfig, h.verbosity⟩
      rw [← hconfig, hnone]
      rfl
  | bind address =>
    simp only [Use.given, settle_bind_eq_ok_iff]
    constructor
    · intro h
      have hbind : options.bind.toList ++ address :: uses.filterMap Use.address? = options'.bind.toList := h.bind
      obtain ⟨hnone, hrest, hsome⟩ := toList_append_cons_eq.1 hbind
      exact ⟨_, ⟨hnone, rfl⟩, h.config, h.config_ne, by simp [hrest, hsome], h.printConfig, h.verbosity⟩
    · intro h
      obtain ⟨_, ⟨hnone, rfl⟩, h⟩ := h
      refine ⟨h.config, h.config_ne, ?_, h.printConfig, h.verbosity⟩
      rw [← h.bind, hnone]
      rfl
  | printConfig =>
    simp only [Use.given, settle_printConfig_eq_ok_iff]
    constructor
    · intro h
      have hprint := h.printConfig
      rw [List.count_cons_self] at hprint
      have hle := options'.printConfig.toNat_le
      have hfalse : options.printConfig = false := by
        rw [← Bool.toNat_eq_zero]
        omega
      exact ⟨_, ⟨hfalse, rfl⟩, h.config, h.config_ne, h.bind, by simp; omega, h.verbosity⟩
    · intro h
      obtain ⟨_, ⟨hfalse, rfl⟩, h⟩ := h
      refine ⟨h.config, h.config_ne, h.bind, ?_, h.verbosity⟩
      rw [← h.printConfig, hfalse, List.count_cons_self]
      simp [Nat.add_comm]
  | verbose =>
    have hmin (n : Nat) : min 255 (min verbosityLimit (options.verbosity + 1) + n) = min 255 (options.verbosity + (n + 1)) := by
      unfold verbosityLimit
      omega
    simp only [Use.given, settle, Except.ok.injEq, exists_eq_left']
    constructor
    · intro h
      refine ⟨h.config, h.config_ne, h.bind, h.printConfig, ?_⟩
      rw [h.verbosity, hmin, List.count_cons_self]
    · intro h
      refine ⟨h.config, h.config_ne, h.bind, h.printConfig, ?_⟩
      rw [h.verbosity, hmin, List.count_cons_self]

theorem adds_nil_iff (hne : options.config ≠ some "") (hle : options.verbosity ≤ 255) :
    Adds options [] options' ↔ options = options' := by
  constructor
  · intro h
    obtain ⟨hconfig, -, hbind, hprint, hverbosity⟩ := h
    obtain ⟨config, bind, print, verbosity⟩ := options
    obtain ⟨config', bind', print', verbosity'⟩ := options'
    simp only [List.filterMap_nil, List.append_nil, List.count_nil, Nat.add_zero] at hconfig hbind hprint hverbosity
    have hprint : print = print' := by cases print <;> cases print' <;> first | rfl | cases hprint
    rw [toList_injective hconfig, toList_injective hbind, hprint, hverbosity, Nat.min_eq_right hle]
  · intro h
    subst h
    exact ⟨by simp, hne, by simp, rfl, by simp; omega⟩

theorem settle_bounds {between : Options} (hne : options.config ≠ some "") (hle : options.verbosity ≤ 255)
    (h : settle options use.given.1 use.given.2 = .ok between) : between.config ≠ some "" ∧ between.verbosity ≤ 255 := by
  cases use with
  | config path =>
    obtain ⟨-, hpath, rfl⟩ := settle_config_eq_ok_iff.1 h
    exact ⟨fun he => hpath (Option.some.inj he), hle⟩
  | bind address =>
    obtain ⟨-, rfl⟩ := settle_bind_eq_ok_iff.1 h
    exact ⟨hne, hle⟩
  | printConfig =>
    obtain ⟨-, rfl⟩ := settle_printConfig_eq_ok_iff.1 h
    exact ⟨hne, hle⟩
  | verbose =>
    cases h
    exact ⟨hne, Nat.min_le_left ..⟩

theorem settleAll_eq_ok_iff (hne : options.config ≠ some "") (hle : options.verbosity ≤ 255) :
    settleAll options uses = .ok options' ↔ Adds options uses options' := by
  induction uses generalizing options with
  | nil => rw [settleAll_nil, adds_nil_iff hne hle, Except.ok.injEq]
  | cons use uses ih =>
    rw [settleAll_cons, bind_eq_ok, adds_cons_iff]
    refine exists_congr fun between => and_congr_right fun h => ?_
    obtain ⟨hne, hle⟩ := settle_bounds hne hle h
    exact ih hne hle

theorem settleAll_initial_eq_ok_iff : settleAll .initial uses = .ok options ↔ Settles uses options := by
  rw [settleAll_eq_ok_iff (by decide) (by decide)]
  constructor
  · intro h
    exact ⟨h.config, h.config_ne, h.bind, by simpa [Options.initial] using h.printConfig,
      by simpa [Options.initial] using h.verbosity⟩
  · intro h
    exact ⟨h.config, h.config_ne, h.bind, by simpa [Options.initial] using h.printConfig,
      by simpa [Options.initial] using h.verbosity⟩

end

/-! ## One argument -/

namespace Reading

section

variable {k k' : Reading} {flag : Flag} {name : String} {letter : Char} {use : String → Use} {attached : Option String}

theorem resolve_of_pending (hp : k.pending = none) : k.resolve = .ok k := by rw [resolve, hp]

theorem pending_of_resolve (h : k.resolve = .ok k') : k'.pending = none := by
  rw [resolve] at h
  split at h
  · next hp =>
    cases h
    exact hp
  · obtain ⟨options, -, h⟩ := bind_eq_ok.1 h
    cases h
    rfl

/-! An option that is read succeeds just if the one before it can be taken, and it succeeds then. -/

theorem take_eq_ok_iff_resolve :
    k.take flag attached = .ok k' ↔ ∃ k₀, k.resolve = .ok k₀ ∧ k₀.take flag attached = .ok k' := by
  rw [take, bind_eq_ok]
  refine exists_congr fun k₀ => and_congr_right fun hk₀ => ?_
  rw [take, resolve_of_pending (pending_of_resolve hk₀)]
  rfl

def behindLetter : List Char → Option String
  | [] => none
  | '=' :: value => some (.ofList value)
  | value => some (.ofList value)

theorem behindLetter_cons {c : Char} (hc : c ≠ '=') (value : List Char) :
    behindLetter (c :: value) = some (.ofList (c :: value)) := by
  unfold behindLetter
  split
  · next he => cases he
  · next he => exact absurd (List.cons.inj he).1 hc
  · rfl

theorem short_cons (k : Reading) (c : Char) (cs : List Char) :
    k.short (c :: cs) = match Flag.ofShort? c with
      | none => .error (.refused (.unexpected (.ofList ['-', c])))
      | some flag =>
        if flag.takesValue then k.take flag (behindLetter cs) else k.take flag none >>= fun k => k.short cs := rfl

theorem short_eq_ok_iff_resolve {c : Char} {cs : List Char} :
    k.short (c :: cs) = .ok k' ↔ ∃ k₀, k.resolve = .ok k₀ ∧ k₀.short (c :: cs) = .ok k' := by
  simp only [short_cons]
  cases Flag.ofShort? c with
  | none => simp
  | some flag =>
    dsimp only
    split
    · exact take_eq_ok_iff_resolve
    · simp only [bind_eq_ok]
      constructor
      · intro h
        obtain ⟨k₁, h₁, h⟩ := h
        obtain ⟨k₀, h₀, h₁⟩ := take_eq_ok_iff_resolve.1 h₁
        exact ⟨k₀, h₀, k₁, h₁, h⟩
      · intro h
        obtain ⟨k₀, h₀, k₁, h₁, h⟩ := h
        exact ⟨k₁, take_eq_ok_iff_resolve.2 ⟨k₀, h₀, h₁⟩, h⟩

theorem long_eq_ok_iff_resolve :
    k.long name attached = .ok k' ↔ ∃ k₀, k.resolve = .ok k₀ ∧ k₀.long name attached = .ok k' := by
  simp only [long]
  split
  · simp
  · split
    · exact take_eq_ok_iff_resolve
    · split
      · exact take_eq_ok_iff_resolve
      · simp

def attachedOf (behind : List Char) : Option String := if behind.isEmpty then none else some (.ofList (behind.drop 1))

/-- The reading `k'` is `k` after these uses, with an option waiting for its value or none. -/
def After (k : Reading) (uses : List Use) (waiting : Option Flag) (k' : Reading) : Prop :=
  ∃ options, settleAll k.options uses = .ok options ∧ k' = ⟨options, waiting.map (·, none), k.closed⟩

/-! From a reading without an option before it, the letters and arguments of the grammar are those that succeed. -/

variable (hp : k.pending = none)

include hp

theorem after_nil_iff : k.After [] none k' ↔ k' = k := by
  obtain ⟨options, pending, closed⟩ := k
  cases hp
  simp [After, settleAll_nil]

theorem take_waiting_iff (hv : Valued flag name letter use) : k.take flag none = .ok k' ↔ k.After [] (some flag) k' := by
  rw [take, resolve_of_pending hp]
  cases hv <;> simp [After, settleAll_nil, Flag.takesValue, eq_comm, bind, Except.bind, pure, Except.pure]

theorem take_use_iff {use : Use} (h : use.given = (flag, attached)) :
    k.take flag attached = .ok k' ↔ k.After [use] none k' := by
  have htake : k.take flag attached = (settle k.options flag attached).map fun options => ⟨options, none, k.closed⟩ := by
    rw [take, resolve_of_pending hp]
    cases use <;> cases h <;> cases k <;> cases hp <;> rfl
  rw [htake, map_eq_ok, After, settleAll_singleton h]
  simp [eq_comm]

omit hp in
theorem after_append_iff {uses uses' : List Use} {waiting : Option Flag} :
    k.After (uses ++ uses') waiting k' ↔ ∃ between, k.After uses none between ∧ between.After uses' waiting k' := by
  simp only [After, settleAll_append, bind_eq_ok]
  constructor
  · intro h
    obtain ⟨options, ⟨between, hbetween, h⟩, rfl⟩ := h
    exact ⟨_, ⟨between, hbetween, rfl⟩, options, h, rfl⟩
  · intro h
    obtain ⟨_, ⟨between, hbetween, rfl⟩, options, h, rfl⟩ := h
    exact ⟨options, ⟨between, hbetween, h⟩, rfl⟩

theorem take_ne_ok (h : flag = .help ∨ flag = .version) : k.take flag none ≠ .ok k' := by
  rw [take, resolve_of_pending hp]
  rcases h with rfl | rfl <;> exact nofun

omit hp in
theorem given_of_valued (hv : Valued flag name letter use) (value : String) : (use value).given = (flag, some value) := by
  cases hv <;> rfl

theorem short_valued_iff (hv : Valued flag name letter use) {cs : List Char} : k.short (letter :: cs) = .ok k' ↔
    ∃ uses waiting, Cluster (letter :: cs) uses waiting ∧ k.After uses waiting k' := by
  have hshort : k.short (letter :: cs) = k.take flag (behindLetter cs) := by cases hv <;> rfl
  rw [hshort]
  constructor
  · intro h
    rcases cs with _ | ⟨c, value⟩
    · exact ⟨_, _, .waiting hv, (take_waiting_iff hp hv).1 h⟩
    · by_cases hc : c = '='
      · subst hc
        exact ⟨_, _, .equals hv, (take_use_iff hp (given_of_valued hv _)).1 h⟩
      · rw [behindLetter_cons hc] at h
        exact ⟨_, _, .direct hv hc, (take_use_iff hp (given_of_valued hv _)).1 h⟩
  · intro h
    obtain ⟨uses, waiting, hcluster, hafter⟩ := h
    cases hcluster with
    | verbose => cases hv
    | waiting hv' =>
      obtain ⟨rfl, rfl⟩ := hv'.unique hv
      exact (take_waiting_iff hp hv).2 hafter
    | equals hv' =>
      obtain ⟨rfl, rfl⟩ := hv'.unique hv
      exact (take_use_iff hp (given_of_valued hv _)).2 hafter
    | direct hv' hc =>
      obtain ⟨rfl, rfl⟩ := hv'.unique hv
      rw [behindLetter_cons hc]
      exact (take_use_iff hp (given_of_valued hv _)).2 hafter

theorem short_verbose_iff {cs : List Char} (ih : ∀ {between : Reading}, between.pending = none → (between.short cs = .ok k' ↔
      ∃ uses waiting, Cluster cs uses waiting ∧ between.After uses waiting k')) : k.short ('v' :: cs) = .ok k' ↔
    ∃ uses waiting, Cluster ('v' :: cs) uses waiting ∧ k.After uses waiting k' := by
  have hshort : k.short ('v' :: cs) = (k.take .verbose none >>= fun k => k.short cs) := rfl
  rw [hshort, bind_eq_ok]
  constructor
  · intro h
    obtain ⟨between, htake, h⟩ := h
    have hbetween := (@take_use_iff _ _ _ _ hp .verbose rfl).1 htake
    obtain ⟨options, hoptions, rfl⟩ := hbetween
    obtain ⟨uses, waiting, hcluster, hafter⟩ := (ih rfl).1 h
    exact ⟨_, waiting, .verbose hcluster, (@after_append_iff _ _ [.verbose] uses _).2 ⟨_, ⟨options, hoptions, rfl⟩, hafter⟩⟩
  · intro h
    obtain ⟨_, waiting, hcluster, hafter⟩ := h
    cases hcluster with
    | @verbose _ uses _ hcluster =>
      obtain ⟨between, hbetween, hafter⟩ := (@after_append_iff _ _ [.verbose] uses _).1 hafter
      refine ⟨between, (@take_use_iff _ _ _ _ hp .verbose rfl).2 hbetween, ?_⟩
      obtain ⟨options, hoptions, rfl⟩ := hbetween
      exact (ih rfl).2 ⟨_, waiting, hcluster, hafter⟩
    | waiting hv | equals hv | direct hv => cases hv

/-- No other letters make a use. -/
theorem short_ne_ok {c : Char} {cs : List Char} (hvalued : ¬ ∃ flag name use, Valued flag name c use) (hverbose : c ≠ 'v') :
    k.short (c :: cs) ≠ .ok k' := by
  rw [short_cons]
  cases hflag : Flag.ofShort? c with
  | none => exact nofun
  | some flag =>
    unfold Flag.ofShort? at hflag
    split at hflag
    · exact absurd ⟨_, _, _, .config⟩ hvalued
    · exact absurd ⟨_, _, _, .bind⟩ hvalued
    · exact absurd rfl hverbose
    · cases hflag
      exact fun h => (bind_eq_ok.1 h).elim fun between h => take_ne_ok hp (.inl rfl) h.1
    · cases hflag
      exact fun h => (bind_eq_ok.1 h).elim fun between h => take_ne_ok hp (.inr rfl) h.1
    · cases hflag

theorem short_eq_ok_iff {cs : List Char} :
    k.short cs = .ok k' ↔ ∃ uses waiting, Cluster cs uses waiting ∧ k.After uses waiting k' := by
  induction cs generalizing k with
  | nil =>
    rw [short, Except.ok.injEq]
    constructor
    · intro h
      exact ⟨[], none, .nil, (after_nil_iff hp).2 h.symm⟩
    · intro h
      obtain ⟨_, _, ⟨⟩, hafter⟩ := h
      exact ((after_nil_iff hp).1 hafter).symm
  | cons c cs ih =>
    by_cases hvalued : ∃ flag name use, Valued flag name c use
    · obtain ⟨flag, name, use, hv⟩ := hvalued
      exact short_valued_iff hp hv
    by_cases hverbose : c = 'v'
    · subst hverbose
      exact short_verbose_iff hp ih
    · constructor
      · intro h
        exact absurd h (short_ne_ok hp hvalued hverbose)
      · intro h
        obtain ⟨uses, waiting, hcluster, hafter⟩ := h
        cases hcluster with
        | verbose => exact absurd rfl hverbose
        | waiting hv | equals hv | direct hv => exact absurd ⟨_, _, _, hv⟩ hvalued

omit hp in
theorem step_long (hclosed : k.closed = false) {argument : String} {c : Char} {cs : List Char}
    (h : argument.toList = '-' :: '-' :: c :: cs) :
    k.step argument = k.long (.ofList ((c :: cs).takeWhile (· != '='))) (attachedOf ((c :: cs).dropWhile (· != '='))) := by
  rw [step, hclosed, h]
  rfl

omit hp in
theorem step_short (hclosed : k.closed = false) {argument : String} {c : Char} {cs : List Char} (hc : c ≠ '-')
    (h : argument.toList = '-' :: c :: cs) : k.step argument = k.short (c :: cs) := by
  rw [step, hclosed, if_neg Bool.false_ne_true, h]
  split
  · next he => exact absurd (List.cons.inj (List.cons.inj he).2).1 hc
  · next he => exact absurd (List.cons.inj (List.cons.inj he).2).1 hc
  · next he =>
    cases he
    rfl
  · next he => exact absurd rfl (he c cs)

omit hp in
theorem ofLong?_cases (h : Flag.ofLong? name = some flag) : (∃ letter use, Valued flag name letter use) ∨
    flag = .printConfig ∧ name = "print-config" ∨ flag = .verbose ∧ name = "verbose" ∨ flag = .help ∨ flag = .version := by
  unfold Flag.ofLong? at h
  split at h
  · cases h
    exact .inl ⟨_, _, .config⟩
  · cases h
    exact .inl ⟨_, _, .bind⟩
  · cases h
    exact .inr (.inl ⟨rfl, rfl⟩)
  · cases h
    exact .inr (.inr (.inl ⟨rfl, rfl⟩))
  · cases h
    exact .inr (.inr (.inr (.inl rfl)))
  · cases h
    exact .inr (.inr (.inr (.inr rfl)))
  · cases h

theorem argument_of_long (h : k.long name none = .ok k') :
    ∃ uses waiting, Argument ("--" ++ name) uses waiting ∧ k.After uses waiting k' := by
  rw [long] at h
  split at h
  · cases h
  next flag hflag =>
  rcases ofLong?_cases hflag with ⟨letter, use, hv⟩ | ⟨rfl, rfl⟩ | ⟨rfl, rfl⟩ | hend
  · exact ⟨_, _, .waiting hv, (take_waiting_iff hp hv).1 h⟩
  · exact ⟨_, _, .printConfig, (take_use_iff hp rfl).1 h⟩
  · exact ⟨_, _, .verbose, (take_use_iff hp rfl).1 h⟩
  · exact absurd h (take_ne_ok hp hend)

theorem argument_of_long_attached {value : String} (h : k.long name (some value) = .ok k') :
    ∃ uses waiting, Argument ("--" ++ name ++ "=" ++ value) uses waiting ∧ k.After uses waiting k' := by
  rw [long] at h
  split at h
  · cases h
  next flag hflag =>
  dsimp only at h
  split at h
  · next htakes =>
    rcases ofLong?_cases hflag with ⟨letter, use, hv⟩ | ⟨rfl, -⟩ | ⟨rfl, -⟩ | rfl | rfl
    · exact ⟨_, _, .equals hv, (take_use_iff hp (given_of_valued hv value)).1 h⟩
    all_goals cases htakes
  · cases h

omit hp in
/-- Behind a name stands nothing, or an equals sign and a value. -/
theorem attachedOf_cases (cs : List Char) :
    (attachedOf (cs.dropWhile (· != '=')) = none ∧ cs = cs.takeWhile (· != '=')) ∨
      ∃ value, attachedOf (cs.dropWhile (· != '=')) = some (.ofList value) ∧ cs = cs.takeWhile (· != '=') ++ '=' :: value := by
  have hcs := (List.takeWhile_append_dropWhile (p := (· != '=')) (l := cs)).symm
  have hhead := List.head?_dropWhile_not (· != '=') cs
  cases hbehind : cs.dropWhile (· != '=') with
  | nil =>
    rw [hbehind, List.append_nil] at hcs
    exact .inl ⟨rfl, hcs⟩
  | cons e value =>
    rw [hbehind] at hcs hhead
    have he : e = '=' := by simpa using hhead
    rw [he] at hcs
    exact .inr ⟨value, rfl, hcs⟩

theorem argument_of_step (hclosed : k.closed = false) {argument : String} {c : Char} {cs : List Char}
    (harg : argument.toList = '-' :: c :: cs) (hne : argument ≠ "--") (h : k.step argument = .ok k') :
    ∃ uses waiting, Argument argument uses waiting ∧ k.After uses waiting k' := by
  have hofList : argument = .ofList ('-' :: c :: cs) := by rw [← harg, String.ofList_toList]
  by_cases hc : c = '-'
  · subst hc
    rcases cs with _ | ⟨c, cs⟩
    · exact absurd hofList hne
    rw [step_long hclosed harg] at h
    have hname (s : List Char) : String.ofList ('-' :: '-' :: s) = "--" ++ .ofList s := @String.ofList_append ['-', '-'] s
    rw [hofList, hname]
    rcases attachedOf_cases (c :: cs) with ⟨hnone, hcs⟩ | ⟨value, hsome, hcs⟩
    · rw [hnone, ← hcs] at h
      exact argument_of_long hp h
    · rw [hsome] at h
      have hvalue : String.ofList (c :: cs) = .ofList ((c :: cs).takeWhile (· != '=')) ++ ("=" ++ .ofList value) := by
        have hequals : "=" ++ String.ofList value = .ofList ('=' :: value) := (@String.ofList_append ['='] value).symm
        rw [hequals, ← String.ofList_append, ← hcs]
      rw [hvalue, ← String.append_assoc, ← String.append_assoc]
      exact argument_of_long_attached hp h
  · rw [step_short hclosed hc harg] at h
    obtain ⟨uses, waiting, hcluster, hafter⟩ := (short_eq_ok_iff hp).1 h
    rw [hofList]
    exact ⟨uses, waiting, .short hcluster, hafter⟩

theorem step_of_argument (hclosed : k.closed = false) {argument : String} {uses : List Use} {waiting : Option Flag}
    (harg : Argument argument uses waiting) (hafter : k.After uses waiting k') : k.step argument = .ok k' := by
  cases harg with
  | printConfig =>
    rw [step_long hclosed rfl]
    exact (take_use_iff hp rfl).2 hafter
  | verbose =>
    rw [step_long hclosed rfl]
    exact (take_use_iff hp rfl).2 hafter
  | waiting hv =>
    have htake := (take_waiting_iff hp hv).2 hafter
    cases hv with
    | config =>
      rw [step_long hclosed rfl]
      exact htake
    | bind =>
      rw [step_long hclosed rfl]
      exact htake
  | @equals flag name value letter use hv =>
    have htake := (take_use_iff hp (given_of_valued hv value)).2 hafter
    rw [← String.ofList_toList (s := value)] at htake
    cases hv with
    | config =>
      have h : ("--" ++ "config" ++ "=" ++ value).toList = '-' :: '-' :: 'c' :: ("onfig=".toList ++ value.toList) := by
        simp
      rw [step_long hclosed h]
      exact htake
    | bind =>
      have h : ("--" ++ "bind" ++ "=" ++ value).toList = '-' :: '-' :: 'b' :: ("ind=".toList ++ value.toList) := by
        simp
      rw [step_long hclosed h]
      exact htake
  | @short c cs uses waiting hcluster =>
    have hc : c ≠ '-' := by
      intro hc
      subst hc
      cases hcluster with
      | waiting hv | equals hv | direct hv => cases hv
    rw [step_short hclosed hc String.toList_ofList]
    exact (short_eq_ok_iff hp).2 ⟨uses, waiting, hcluster, hafter⟩

end

end Reading

end Calculator.CommandLine
