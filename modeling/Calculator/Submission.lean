/-
  Calculator.Submission — what the body of a request submits for calculation.

  A body is a JSON object whose member `expression` holds the expression; other members do
  not matter, and of several with that name the last counts. A member that is null is as
  good as none.

  `decode` reads the whole body into a value first. `decodeInOnePass` keeps nothing but the
  member it looks for: it passes over the others, refuses a second `expression`, and takes
  an array as the list of the members' values. The two agree on objects without a fault in
  what is passed over.
-/

import Calculator.Json.Value

namespace Calculator

open Json

/-- What a submission holds in place of an expression. -/
inductive Field where
  | text (s : String)
  /-- Any value but a string and null. -/
  | other (value : Json)

namespace Field

def ofJson : Json → Option Field
  | .null => none
  | .text s => some (text s)
  | value => some (other value)

def text? : Field → Option String
  | text s => some s
  | other _ => none

end Field

namespace Submission

def fieldName : String := "expression"

def fieldOf (members : List (String × Json)) : Option Field :=
  (lookup fieldName members).bind Field.ofJson

def decode (body : List UInt8) : Except Fault (Option Field) := do
  match ← Json.ofBytes body with
  | .object members => return fieldOf members
  | _ => throw .wrongShape

/-! ## In one pass -/

/-- A value inside the body, which is itself one level deep. -/
def fieldValue : Reader (Option Field) := (Scheme.building.value (nestingLimit - 1)).map Field.ofJson

/-- One member, where `found` is the field if it was seen before. Arrays and objects that
are passed over may nest `depth` deep. -/
def memberOnto (depth : Nat) (found : Option (Option Field)) : Reader (Option (Option Field)) :=
  quoted.inQuotes.bind fun name =>
    if name = fieldName then
      if found.isSome then .fail .wrongShape
      else (Reader.mark ':').bind fun _ => fieldValue.map some
    else (Reader.mark ':').bind fun _ => (Scheme.skipping.value depth).map fun _ => found

def named (depth : Nat) : Reader (Option Field) :=
  (Reader.inside (memberOnto depth) '}' none).map Option.join

/-- The inside of an array, which has at most one value. -/
def positional : Reader (Option Field) where
  read input :=
    match skipBlanks input with
    | [] => .error .truncated
    | b :: rest =>
      if Char.ofUInt8 b = ']' then .ok (none, rest)
      else (fieldValue.bind fun field => (Reader.mark ']').map fun _ => field).read input
  shorter := by
    intro input value rest h
    have := length_skipBlanks_le input
    split at h
    · cases h
    · next heq =>
      rw [heq] at this
      split at h
      · cases h; exact this
      · exact (fieldValue.bind _).shorter h

/-- The value in front is read for its faults, but it is neither object nor array. -/
def otherwise : Reader (Option Field) := (Scheme.building.value 0).bind fun _ => .fail .wrongShape

/-- The field of a body, the whole of which is `depth` bytes or fewer. -/
def onePass (depth : Nat) : Reader (Option Field) where
  read input :=
    match skipBlanks input with
    | [] => .error .truncated
    | b :: rest =>
      if Char.ofUInt8 b = '{' then (named depth).read rest
      else if Char.ofUInt8 b = '[' then positional.read rest
      else otherwise.read (b :: rest)
  shorter := by
    intro input value rest h
    have := length_skipBlanks_le input
    split at h
    · cases h
    · next b after heq =>
      rw [heq] at this
      split at h
      · exact Nat.lt_of_lt_of_le (Nat.lt_succ_of_lt ((named depth).shorter h)) this
      split at h
      · exact Nat.lt_of_lt_of_le (Nat.lt_succ_of_lt (positional.shorter h)) this
      · exact Nat.lt_of_lt_of_le (otherwise.shorter h) this

/-- The field of a body, read without building the rest of it. -/
def decodeInOnePass (body : List UInt8) : Except Fault (Option Field) := (onePass body.length).whole body

end Submission

end Calculator
