/-
  Calculator.Yaml — YAML nodes, as a document spells them.

  A scalar keeps its text and whether it was written plain, which decides whether the text
  may stand for anything but text. An alias holds the node it names.
-/

namespace Calculator

/-- A tag in full, as in `tag:yaml.org,2002:str` or `!local`. -/
abbrev Yaml.Tag := String

inductive Yaml where
  | scalar (tag : Option Yaml.Tag) (plain : Bool) (text : String)
  | sequence (tag : Option Yaml.Tag) (items : List Yaml)
  | mapping (tag : Option Yaml.Tag) (entries : List (Yaml × Yaml))
  | aliased (node : Yaml)

namespace Yaml

/-- What stands where a node is left out. -/
def empty : Yaml := scalar none true ""

/-- The node with a tag. The tag `!` says nothing about a scalar, unless that is left out. -/
def withTag (tag : Option Tag) : Yaml → Yaml
  | scalar own plain text =>
    if tag.isNone || (tag == some "!" && !(plain && text.isEmpty)) then scalar own plain text
    else scalar tag plain text
  | sequence own items => sequence (tag.or own) items
  | mapping own entries => mapping (tag.or own) entries
  | aliased node => aliased node

end Yaml

end Calculator
