/-
  Calculator.Journal.Directive — the texts that ask for what the journal shows.

  A text holds directives, with commas between them. A directive is a level, or a target with a level behind an equals
  sign; without a level it asks for everything of that target. It applies to the program if its target is how the
  program's name starts, or if it has no target. Of those that apply the one with the longest target counts, and the
  last one of these. If none applies nothing is shown; of a text without any directive the errors are.

  Directives for a part of the program or for spans, in which brackets stand, are not told apart here. The former apply to
  nothing, and the latter are no directives.
-/

import Calculator.Journal

namespace Calculator.Journal

/-- The filter of a level's name, in letters of any case, or of its number. -/
def Filter.ofName? (text : String) : Option Filter :=
  match text.map Char.toLower with
  | "off" | "0" => some none
  | "error" | "1" => some (some .error)
  | "warn" | "2" => some (some .warn)
  | "info" | "3" => some (some .info)
  | "debug" | "4" => some (some .debug)
  | "trace" | "5" => some (some .trace)
  | _ => none

structure Directive where
  /-- How the names of what it applies to start. -/
  target : Option (List Char)
  filter : Filter
  deriving DecidableEq, Repr

namespace Directive

/-- Letters, digits and the signs in paths. Beyond ASCII all characters count as letters. -/
def isTargetChar (c : Char) : Bool := c.isAlphanum || c == '_' || c == ':' || c == '-' || 0x80 ≤ c.toNat

/-- The directive of a target and of what stands behind it. -/
def behind? (target : Option (List Char)) (alone : Filter) : List Char → Option Directive
  | [] => some ⟨target, alone⟩
  | ['='] => some ⟨target, some .trace⟩
  | '=' :: level => (Filter.ofName? (.ofList level)).map fun filter => ⟨target, filter⟩
  | _ => none

/-- The name of a level is no target. -/
def ofText? (s : List Char) : Option Directive :=
  let target := s.takeWhile isTargetChar
  if target.isEmpty then none
  else match Filter.ofName? (.ofList target) with
    | some filter => behind? none filter (s.dropWhile isTargetChar)
    | none => behind? (some target) (some .trace) (s.dropWhile isTargetChar)

def programName : List Char := "calculatrice_serveur".toList

def applies (d : Directive) : Bool := d.target.all (·.isPrefixOf programName)

def weight (d : Directive) : Nat := d.target.elim 0 List.length

/-- Of the directives that apply the last one of the narrowest. -/
def strongest? : List Directive → Option Directive
  | [] => none
  | d :: ds =>
    match strongest? ds with
    | none => if d.applies then some d else none
    | some e => if d.applies && e.weight < d.weight then some d else some e

def filterOf (ds : List Directive) : Filter :=
  if ds.isEmpty then some .error else (strongest? ds).bind Directive.filter

end Directive

def parts (text : String) : List (List Char) := (text.toList.splitOn ',').filter (!·.isEmpty)

/-- What a text asks for, if all of its parts are directives. -/
def Filter.ofText? (text : String) : Option Filter := ((parts text).mapM Directive.ofText?).map Directive.filterOf

/-- What a text asks for, whatever else stands in it. -/
def Filter.ofText (text : String) : Filter := Directive.filterOf ((parts text).filterMap Directive.ofText?)

end Calculator.Journal
