import DhallSyntax.Document.Reader
import DhallSyntax.Json.Printer
import DhallSyntax.Json.Reader
import DhallSyntax.Yaml.Printer
import DhallSyntax.Yaml.Reader

/-!
Expressions as JSON and YAML texts. A text that is written has to be readable again, so integers in
it have at most as many digits as are converted.
-/

namespace DhallSyntax

/-- Why an expression has no text. -/
inductive WriteError where
  | tooDeep
  /-- An integer has more digits than are converted. -/
  | longInteger
deriving DecidableEq, Repr

/-- Why a text is not an expression. -/
inductive ExchangeError where
  | json (cause : Json.Error)
  | yaml (cause : Yaml.Error)
  | tree (cause : ReadError)
deriving DecidableEq, Repr

inductive Format where
  | json
  | yaml
deriving DecidableEq, Repr

namespace Document

mutual

def hasLongInteger : Document → Bool
  | .int n => Numeral.conversionLimit < (Numeral.digitsOf n.natAbs).length
  | .list items => anyLongInteger items
  | .object entries => anyLongEntry entries
  | .knot _ d => hasLongInteger d
  | _ => false

def anyLongInteger : List Document → Bool
  | [] => false
  | item :: rest => hasLongInteger item || anyLongInteger rest

def anyLongEntry : List (Scalar × Document) → Bool
  | [] => false
  | (_, value) :: rest => hasLongInteger value || anyLongEntry rest

end

end Document

namespace Format

/-- Reads a text of a format. -/
def read (format : Format) (text : String) : Except ExchangeError Document :=
  match format with
  | json => (Json.read Json.depthLimit text).mapError .json
  | yaml => (Yaml.read text).mapError .yaml

end Format

namespace Expr

/-- The document of an expression, fit to be written as text. -/
def exchangeDocument (e : Expr) : Except WriteError Document :=
  match e.toDocument? with
  | none => .error .tooDeep
  | some d => if d.hasLongInteger then .error .longInteger else .ok d

/-- The spaces by which JSON texts are indented unless asked otherwise. -/
def jsonIndent : Nat := 2

def toJson (e : Expr) (indent : Nat) : Except WriteError String :=
  e.exchangeDocument.map (Json.indented indent)

def toYaml (e : Expr) : Except WriteError String :=
  e.exchangeDocument.map Yaml.render

/-- The text of an expression in a format. -/
def write (format : Format) (e : Expr) : Except WriteError String :=
  match format with
  | .json => e.toJson jsonIndent
  | .yaml => e.toYaml

/-- Reads an expression from a text of a format. -/
def read (format : Format) (text : String) : Except ExchangeError Expr := do
  (Expr.ofDocument (← format.read text)).mapError .tree

end Expr

namespace LooseTree

/-- Reads a tree from a text of a format. -/
def read (format : Format) (text : String) : Except ExchangeError LooseTree := do
  (LooseTree.ofDocument (← format.read text)).mapError .tree

end LooseTree

end DhallSyntax
