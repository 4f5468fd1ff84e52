import DhallSyntax.Entries
import DhallSyntax.Number.Decimal
import DhallSyntax.Operator
import DhallSyntax.Tree.Import

/-!
The syntax tree. It is purely syntactic: variable indices stand as written, imports are not
resolved and labels need not be distinct. Its names and texts are of a type `τ` and its whole
numbers of a type `ν`; the trees of source texts are the type `Expr`.
-/

namespace DhallSyntax

/-- One definition of a `let`. -/
structure Binding (τ ε : Type) where
  name : τ
  annotation : Option ε
  value : ε

inductive Tree (τ ν : Type) where
  | variable (name : τ) (index : Int)
  | builtin (name : τ)
  | lambda (param : τ) (domain body : Tree τ ν)
  | pi (param : τ) (domain body : Tree τ ν)
  | app (function argument : Tree τ ν)
  | letIn (bindings : List (Binding τ (Tree τ ν))) (body : Tree τ ν)
  | conditional (condition yes no : Tree τ ν)
  | annotated (subject type : Tree τ ν)
  | operation (operator : Operator) (left right : Tree τ ν)
  | merge (handler union : Tree τ ν) (type : Option (Tree τ ν))
  | toMap (record : Tree τ ν) (type : Option (Tree τ ν))
  | emptyList (element : Tree τ ν)
  | list (elements : List (Tree τ ν))
  | present (value : Tree τ ν)
  | recordType (fields : List (τ × Option (Tree τ ν)))
  | record (fields : List (τ × Option (Tree τ ν)))
  | union (alternatives : List (τ × Option (Tree τ ν)))
  | field (record : Tree τ ν) (label : τ)
  | projection (record : Tree τ ν) (labels : List τ)
  | projectionByType (record selector : Tree τ ν)
  | text (chunks : List (τ × Tree τ ν)) (suffix : τ)
  | double (value : Decimal)
  | natural (value : ν)
  | integer (value : ν)
  | embedded (value : Import τ)

/-- The trees of source texts. A record field of such a tree always has a value. -/
abbrev Expr := Tree String Int

namespace Tree

variable {τ ν : Type}

/-- The name of the kind of a node. -/
def nodeName : Tree τ ν → String
  | .variable .. => "Variable"
  | .builtin .. => "Builtin"
  | .lambda .. => "Lambda"
  | .pi .. => "Pi"
  | .app .. => "App"
  | .letIn .. => "Let"
  | .conditional .. => "If"
  | .annotated .. => "Annotated"
  | .operation .. => "Operator"
  | .merge .. => "Merge"
  | .toMap .. => "ToMap"
  | .emptyList .. => "EmptyList"
  | .list .. => "NonEmptyList"
  | .present .. => "Some"
  | .recordType .. => "RecordType"
  | .record .. => "RecordLiteral"
  | .union .. => "UnionType"
  | .field .. => "Field"
  | .projection .. => "Projection"
  | .projectionByType .. => "ProjectionByType"
  | .text .. => "TextLiteral"
  | .double .. => "DoubleLiteral"
  | .natural .. => "NaturalLiteral"
  | .integer .. => "IntegerLiteral"
  | .embedded .. => "Import"

/-- A text literal that has no interpolation. -/
def isPlainText : Tree τ ν → Bool
  | .text chunks _ => chunks.isEmpty
  | _ => false

/-- The entries of a record, a record type or a union, without repeated labels. -/
def byLabel? [BEq τ] : Tree τ ν → Option (List (τ × Option (Tree τ ν)))
  | .recordType entries | .record entries | .union entries =>
    some (Entries.distinct (· == ·) entries)
  | _ => none

mutual

/-- The number of nodes on the longest way down. -/
def depth : Tree τ ν → Nat
  | .variable .. | .builtin .. | .double .. | .natural .. | .integer .. => 1
  | .lambda _ a b | .pi _ a b | .app a b | .annotated a b | .operation _ a b
  | .projectionByType a b => max (depth a) (depth b) + 1
  | .letIn bindings body => max (bindingsDepth bindings) (depth body) + 1
  | .conditional a b c => max (depth a) (max (depth b) (depth c)) + 1
  | .merge a b type => max (depth a) (max (depth b) (optionDepth type)) + 1
  | .toMap a type => max (depth a) (optionDepth type) + 1
  | .emptyList a | .present a | .field a _ | .projection a _ => depth a + 1
  | .list elements => listDepth elements + 1
  | .recordType entries | .record entries | .union entries => entriesDepth entries + 1
  | .text chunks _ => chunksDepth chunks + 1
  | .embedded i => i.depth

def optionDepth : Option (Tree τ ν) → Nat
  | none => 0
  | some t => depth t

def listDepth : List (Tree τ ν) → Nat
  | [] => 0
  | t :: rest => max (depth t) (listDepth rest)

def entriesDepth : List (τ × Option (Tree τ ν)) → Nat
  | [] => 0
  | (_, value) :: rest => max (optionDepth value) (entriesDepth rest)

def chunksDepth : List (τ × Tree τ ν) → Nat
  | [] => 0
  | (_, t) :: rest => max (depth t) (chunksDepth rest)

def bindingsDepth : List (Binding τ (Tree τ ν)) → Nat
  | [] => 0
  | ⟨_, type, value⟩ :: rest =>
    max (optionDepth type) (max (depth value) (bindingsDepth rest))

end

end Tree

end DhallSyntax
