/-
  Calculator.CommandLine — the program's options.

  Arguments are read from the left. Help and version answer where they stand. An option's
  value stands behind it in the same argument, or is the next argument, unless that starts
  with a dash and goes on. An option that lacks its value, or is given twice where once is
  the limit, is refused when the next option is read or the arguments end. What is no
  option is refused at once, and so is everything behind `--`.
-/

namespace Calculator.CommandLine

structure Options where
  config : Option String
  /-- The address to listen on, whatever the settings say. -/
  bind : Option String
  printConfig : Bool
  /-- How many times a more verbose journal is asked for. -/
  verbosity : Nat
  deriving DecidableEq, Repr

def Options.initial : Options := ⟨none, none, false, 0⟩

inductive Flag where
  | config
  | bind
  | printConfig
  | verbose
  | help
  | version
  deriving DecidableEq, Repr

inductive Refusal where
  | valueMissing (flag : Flag)
  | repeated (flag : Flag)
  | valueUnneeded (flag : Flag) (value : String)
  | unexpected (argument : String)
  deriving DecidableEq, Repr

inductive Stop where
  | help
  | version
  | refused (why : Refusal)
  deriving DecidableEq, Repr

/-! ## Names -/

def Flag.ofLong? : String → Option Flag
  | "config" => some config
  | "bind" => some bind
  | "print-config" => some printConfig
  | "verbose" => some verbose
  | "help" => some help
  | "version" => some version
  | _ => none

def Flag.ofShort? : Char → Option Flag
  | 'c' => some config
  | 'b' => some bind
  | 'v' => some verbose
  | 'h' => some help
  | 'V' => some version
  | _ => none

def Flag.takesValue : Flag → Bool
  | config | bind => true
  | _ => false

def Flag.text : Flag → String
  | config => "--config <CONFIG>"
  | bind => "--bind <BIND>"
  | printConfig => "--print-config"
  | verbose => "--verbose..."
  | help => "--help"
  | version => "--version"

def Refusal.message : Refusal → String
  | valueMissing flag => "a value is required for '" ++ flag.text ++ "' but none was supplied"
  | repeated flag => "the argument '" ++ flag.text ++ "' cannot be used multiple times"
  | valueUnneeded flag value =>
    "unexpected value '" ++ value ++ "' for '" ++ flag.text ++ "' found; no more were expected"
  | unexpected argument => "unexpected argument '" ++ argument ++ "' found"

def helpText : String :=
  "Serveur HTTP d’évaluation d’expressions arithmétiques\n\n" ++
  "Usage: calculatrice_serveur [OPTIONS]\n\n" ++
  "Options:\n" ++
  "  -c, --config <CONFIG>  Path to configuration file (YAML)\n" ++
  "  -b, --bind <BIND>      Bind address override (ex: 127.0.0.1:8080)\n" ++
  "      --print-config     Print effective configuration (JSON) and exit\n" ++
  "  -v, --verbose...       Log verbosity level (-v info, -vv debug, -vvv trace)\n" ++
  "  -h, --help             Print help\n" ++
  "  -V, --version          Print version\n"

def versionText : String := "calculatrice-serveur 0.1.0\n"

/-! ## Reading -/

structure Reading where
  options : Options
  /-- The option read last that takes a value, with the value if it has come. -/
  pending : Option (Flag × Option String)
  /-- `--` was read. -/
  closed : Bool
  deriving DecidableEq, Repr

def Reading.initial : Reading := ⟨.initial, none, false⟩

def verbosityLimit : Nat := 255

/-- Takes an option with its value. A path may not be empty. -/
def settle (options : Options) (flag : Flag) (value : Option String) : Except Stop Options :=
  match flag, value with
  | .config, none | .bind, none => .error (.refused (.valueMissing flag))
  | .config, some path =>
    if options.config.isSome then .error (.refused (.repeated flag))
    else if path = "" then .error (.refused (.valueMissing flag))
    else .ok { options with config := some path }
  | .bind, some address =>
    if options.bind.isSome then .error (.refused (.repeated flag))
    else .ok { options with bind := some address }
  | .printConfig, _ =>
    if options.printConfig then .error (.refused (.repeated flag)) else .ok { options with printConfig := true }
  | .verbose, _ => .ok { options with verbosity := min verbosityLimit (options.verbosity + 1) }
  | .help, _ => .error .help
  | .version, _ => .error .version

namespace Reading

def resolve (k : Reading) : Except Stop Reading :=
  match k.pending with
  | none => .ok k
  | some (flag, value) => do return { k with options := ← settle k.options flag value, pending := none }

/-- Takes an option and the value behind it in the same argument, if there is one. -/
def take (k : Reading) (flag : Flag) (attached : Option String) : Except Stop Reading := do
  let k ← k.resolve
  if flag.takesValue && attached.isNone then return { k with pending := some (flag, none) }
  else return { k with options := ← settle k.options flag attached }

def long (k : Reading) (name : String) (attached : Option String) : Except Stop Reading :=
  match Flag.ofLong? name with
  | none => .error (.refused (.unexpected ("--" ++ name)))
  | some flag =>
    match attached with
    | none => k.take flag none
    | some value =>
      if flag.takesValue then k.take flag (some value) else .error (.refused (.valueUnneeded flag value))

/-- The letters behind a single dash. Behind the letter of an option that takes a value
stands that value, with or without an equals sign. -/
def short (k : Reading) : List Char → Except Stop Reading
  | [] => .ok k
  | c :: rest =>
    match Flag.ofShort? c with
    | none => .error (.refused (.unexpected (.ofList ['-', c])))
    | some flag =>
      if flag.takesValue then
        k.take flag (match rest with
          | [] => none
          | '=' :: value => some (.ofList value)
          | value => some (.ofList value))
      else do (← k.take flag none).short rest

def step (k : Reading) (argument : String) : Except Stop Reading :=
  if k.closed then .error (.refused (.unexpected argument))
  else match argument.toList with
    | ['-', '-'] => .ok { k with closed := true }
    | '-' :: '-' :: rest =>
      let name := rest.takeWhile (· != '=')
      let behind := rest.dropWhile (· != '=')
      k.long (.ofList name) (if behind.isEmpty then none else some (.ofList (behind.drop 1)))
    | '-' :: c :: rest => k.short (c :: rest)
    | _ =>
      match k.pending with
      | some (flag, none) => .ok { k with pending := some (flag, some argument) }
      | _ => .error (.refused (.unexpected argument))

end Reading

/-- The options of the arguments, without the program's name. -/
def parse (arguments : List String) : Except Stop Options := do
  return (← (← arguments.foldlM Reading.step .initial).resolve).options

end Calculator.CommandLine
