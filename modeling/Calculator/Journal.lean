/-
  Calculator.Journal — what a run of the server records, and how much of it is shown.

  Every entry has a level. A journal kept at a level shows the entries of that level and of
  the more severe ones, in the order they were made; at `off` it shows none.
-/

namespace Calculator.Journal

inductive Level where
  | error
  | warn
  | info
  | debug
  | trace
  deriving DecidableEq, Repr

/-- 1 for the most severe. -/
def Level.verbosity : Level → Nat
  | error => 1
  | warn => 2
  | info => 3
  | debug => 4
  | trace => 5

def Level.label : Level → String
  | error => "ERROR"
  | warn => "WARN"
  | info => "INFO"
  | debug => "DEBUG"
  | trace => "TRACE"

inductive Entry where
  /-- The server listens. -/
  | bound
  | bodyRejected
  | expressionNotText
  | calculated
  | evaluated
  | expressionRejected
  | shuttingDown
  deriving DecidableEq, Repr

namespace Entry

def level : Entry → Level
  | bound | evaluated | shuttingDown => .info
  | bodyRejected => .warn
  | expressionNotText | calculated | expressionRejected => .debug

def message : Entry → String
  | bound => "HTTP server bound on"
  | bodyRejected => "request body rejected"
  | expressionNotText => "expression is not a string"
  | calculated => "calculation succeeded"
  | evaluated => "expression evaluated"
  | expressionRejected => "expression rejected"
  | shuttingDown => "HTTP server shutting down gracefully"

def line (e : Entry) : String := e.level.label ++ " " ++ e.message

end Entry

/-- The most verbose level shown; `none` is off. -/
abbrev Filter := Option Level

def Filter.shows (f : Filter) (l : Level) : Bool := f.any fun most => l.verbosity ≤ most.verbosity

def shown (f : Filter) (entries : List Entry) : List Entry := entries.filter fun e => f.shows e.level

end Calculator.Journal
