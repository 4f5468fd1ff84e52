import DhallSyntax.Yaml.Cursor

/-!
The tokens of a YAML text. Indentation shows as tokens that open and close lists and mappings.
-/

namespace DhallSyntax.Yaml

/-- A tag as written: a handle with the rest of the name behind it, or a whole name. -/
structure WrittenTag where
  handle : Option String
  suffix : String
deriving DecidableEq, Repr

inductive Directive where
  | version (major minor : Nat)
  /-- What a handle stands for. -/
  | handle (name meaning : String)
  | other
deriving DecidableEq, Repr

/-- The two kinds of collections. -/
inductive Shape where
  | list
  | mapping
deriving DecidableEq, Repr

inductive Token where
  | directive (d : Directive)
  | documentStart
  | documentEnd
  | blockStart (shape : Shape)
  | blockEnd
  | flowStart (shape : Shape)
  | flowEnd (shape : Shape)
  /-- A dash in front of an item. -/
  | item
  /-- A comma. -/
  | separator
  | key
  | value
  | alias (name : String)
  | anchor (name : String)
  | tag (written : WrittenTag)
  | scalar (isPlain : Bool) (text : String)
  | textEnd
  /-- The text cannot be read any further. -/
  | fault (cause : Error)
deriving DecidableEq, Repr

end DhallSyntax.Yaml
