/-
  Calculator.Json.Compact — values written without blanks.

  An object's members are written in the order of their names' code points, each name once
  and with the value of its last member.
-/

import Calculator.Json.Number
import Calculator.Json.Text

namespace Calculator.Json

/-- Of neighbours with the same name keeps the last. -/
def keepLast : List (String × String) → List (String × String)
  | (a, x) :: (b, y) :: rest => if a = b then keepLast ((b, y) :: rest) else (a, x) :: keepLast ((b, y) :: rest)
  | members => members
termination_by members => members.length

/-- Members sorted by name, the last of each name. The sort is stable. -/
def canonical (members : List (String × String)) : List (String × String) :=
  keepLast (members.mergeSort fun a b => a.1 ≤ b.1)

def memberText (member : String × String) : String := quote member.1 ++ ":" ++ member.2

def joined (parts : List String) : String := String.intercalate "," parts

mutual

def compact : Json → String
  | .null => "null"
  | .bool b => if b then "true" else "false"
  | .number n => n.text
  | .text s => quote s
  | .array items => "[" ++ joined (compactItems items) ++ "]"
  | .object members => "\x7b" ++ joined ((canonical (compactMembers members)).map memberText) ++ "\x7d"

def compactItems : List Json → List String
  | [] => []
  | item :: items => compact item :: compactItems items

def compactMembers : List (String × Json) → List (String × String)
  | [] => []
  | (name, value) :: members => (name, compact value) :: compactMembers members

end

end Calculator.Json
