/-
  Calculator.Settings.Value — values of settings, whatever source they come from.

  A setting is given only by text. Of the other kinds it matters that they are no text.
  A dictionary keeps its entries as they come; the last one of a key counts, and so a
  layer of settings goes on top of another by standing behind it.
-/

namespace Calculator.Settings

inductive Value where
  | null
  | bool (b : Bool)
  /-- A number, as it is spelled. -/
  | number (spelling : String)
  | text (s : String)
  | list (items : List Value)
  | dict (entries : List (String × Value))

abbrev Dict := List (String × Value)

/-- The value of the last entry of a key. -/
def Dict.get? (d : Dict) (key : String) : Option Value := (d.reverse.find? (·.1 == key)).map (·.2)

def Value.text? : Value → Option String
  | .text s => some s
  | _ => none

end Calculator.Settings
