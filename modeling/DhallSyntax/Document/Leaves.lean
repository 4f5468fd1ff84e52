import DhallSyntax.Document.Basic

/-!
The leaves of trees in documents: names, texts and whole numbers. `Leaves.strict` is for the trees
of source texts; `Leaves.loose` takes whatever a document holds where a name or text should be.
-/

namespace DhallSyntax

/-- Why a document is not a tree. -/
inductive ReadError where
  /-- A key is missing, or a name is none of those it may be. -/
  | key (name : String)
  | unknownKind (shown : String)
  | unknownImportKind (shown : String)
  /-- The headers of an import are another node. -/
  | headers (node : String)
  | badNumber
  | badDecimal
  | badHash
  | wrongType
  | infiniteIndex
  | tooDeep
deriving DecidableEq, Repr

/-- How the leaves of a tree are written and read. -/
structure Leaves (τ ν : Type) where
  writeText : τ → Document
  readText : Document → Except ReadError τ
  writeNumber : ν → String
  readNumber : Document → Except ReadError ν

/-- A whole number as a document may give it. A truth value is kept as it is. -/
inductive LooseNumber where
  | number (n : Int)
  | flag (b : Bool)
deriving DecidableEq, Repr

namespace LooseNumber

def text : LooseNumber → String
  | number n => Numeral.writeSliced n
  | flag b => Scalar.wordFor b

/-- Reads a number, or any decimal text of one. -/
def read : Document → Except ReadError LooseNumber
  | .int n => .ok (number n)
  | .bool b => .ok (flag b)
  | .text s =>
    match Numeral.readSigned? s.toList with
    | some n => .ok (number n)
    | none => .error .badNumber
  | _ => .error .badNumber

end LooseNumber

namespace Leaves

/-- Takes names and texts as they are. -/
def loose : Leaves Document LooseNumber where
  writeText d := d
  readText d := .ok d
  writeNumber := LooseNumber.text
  readNumber := LooseNumber.read

/-- Names and texts are texts, and numbers are numbers. -/
def strict : Leaves String Int where
  writeText := .text
  readText
    | .text s => .ok s
    | _ => .error .wrongType
  writeNumber := Numeral.writeSliced
  readNumber d := do
    match ← LooseNumber.read d with
    | .number n => return n
    | .flag _ => throw .wrongType

end Leaves

end DhallSyntax
