import DhallSyntax.Grammar.Fault
import DhallSyntax.Grammar.Rule
import DhallSyntax.Text.Location

/-!
Parse errors: what is wrong, where, what would have been accepted there, and inside which rules.
-/

namespace DhallSyntax

/-- An error in a source text. -/
structure SyntaxError where
  kind : ErrorKind
  message : String
  location : Location
  expected : List String
  /-- The rules that were open, outermost first. -/
  rules : List Rule
  source : List Char
deriving DecidableEq, Repr

/-- Items with commas between them, and "or" before the last one. -/
def joinAlternatives (items : List String) : String :=
  match items.reverse with
  | [] => ""
  | [item] => item
  | last :: others => ", ".intercalate others.reverse ++ " or " ++ last

namespace SyntaxError

/-- The offending line with a caret. -/
def excerpt (e : SyntaxError) : String :=
  DhallSyntax.excerpt e.source e.location.offset

/-- The whole error in one line. -/
def text (e : SyntaxError) : String :=
  e.kind.name ++ " at " ++ e.location.text ++ ": " ++ e.message ++
    if e.expected.isEmpty then "" else " (expected " ++ joinAlternatives e.expected ++ ")"

end SyntaxError

/-- How a parse fails. -/
inductive ParseError where
  | source (error : SyntaxError)
  | stackExhausted
  | numberRange
deriving DecidableEq, Repr

end DhallSyntax
