/-
  Calculator.Program — from the arguments to a server that listens, or to the end.

  Help, version and refused arguments end the program before anything else is looked at.
  Then the settings are loaded, the address given as an argument takes the place of theirs,
  and the settings are printed if that was asked for. Only after that the address is read
  and bound. A server that listens answers requests until it is interrupted (`session`).
-/

import Calculator.CommandLine
import Calculator.Http
import Calculator.Journal.Directive
import Calculator.Settings

namespace Calculator.Program

structure Surroundings where
  environment : List (String × String)
  document : String → Settings.Source
  /-- The address is free and one of this machine. -/
  canBind : SocketAddress → Bool

inductive Outcome where
  /-- It ends with this exit code, having written to its output and its error output. -/
  | ended (code : Nat) (output complaint : String)
  | listening (address : SocketAddress) (journal : Journal.Filter)
  deriving DecidableEq, Repr

def journalVariable : String := "RUST_LOG"

/-- What the journal shows. The variable counts only if all of it can be read. -/
def journalFilter (environment : List (String × String)) (verbosity : Nat) (s : Settings) : Journal.Filter :=
  match (environment.lookup journalVariable).bind Journal.Filter.ofText? with
  | some filter => filter
  | none =>
    match verbosity with
    | 0 => .ofText s.logLevel
    | 1 => some .info
    | 2 => some .debug
    | _ => some .trace

def settingsText (s : Settings) : String :=
  let line := fun (key value : String) => "  " ++ Json.quote key ++ ": " ++ Json.quote value
  "\x7b\n" ++ line Settings.bindAddressKey s.bindAddress ++ ",\n" ++ line Settings.logLevelKey s.logLevel ++ "\n\x7d\n"

def failure (message : String) : Outcome := .ended 1 "" ("Error: " ++ message)

def cannotBind (address : SocketAddress) : Outcome := failure ("cannot bind " ++ address.text)

/-- Runs the program up to where it listens. -/
def start (around : Surroundings) (arguments : List String) : Outcome :=
  match CommandLine.parse arguments with
  | .error .help => .ended 0 CommandLine.helpText ""
  | .error .version => .ended 0 CommandLine.versionText ""
  | .error (.refused why) => .ended 2 "" ("error: " ++ why.message)
  | .ok options =>
    let source := match options.config with
      | some path => around.document path
      | none => .none
    match Settings.load source around.environment with
    | .error e => failure e.message
    | .ok loaded =>
      let settings := { loaded with bindAddress := options.bind.getD loaded.bindAddress }
      if options.printConfig then .ended 0 (settingsText settings) ""
      else match settings.address with
        | .error e => failure e.message
        | .ok address =>
          if around.canBind address then
            .listening address (journalFilter around.environment options.verbosity settings)
          else cannotBind address

/-! ## While it listens -/

/-- What is seen of a server from its start until it is interrupted. -/
structure Session where
  replies : List Http.Reply
  journal : List String
  deriving DecidableEq, Repr

/-- Serves requests in order, with nothing remembered at the start. -/
def session (journal : Journal.Filter) (requests : List Http.Request) : Session :=
  let exchanges := Http.serve .fresh requests
  ⟨exchanges.map Http.Exchange.reply, (Journal.shown journal (Http.journalOf exchanges)).map Journal.Entry.line⟩

end Calculator.Program
