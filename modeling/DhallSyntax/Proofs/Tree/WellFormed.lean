import DhallSyntax.Text.CharClass
import DhallSyntax.Tree.Basic
import DhallSyntax.Vocabulary

/-!
The data model of trees. A tree is well formed when each of its nodes is: labels are made of the
characters that a quoted label may hold, numbers that count things are not negative, and lists that
must hold something are not empty. What the parts of an import may be is left open, as an
`ImportModel`.
-/

namespace DhallSyntax

/-- A label, a name of a variable or of a binder: printable ASCII without the backquote. -/
def IsLabel (s : String) : Prop := ∀ c ∈ s.toList, CharClass.quotedLabel c = true

instance (s : String) : Decidable (IsLabel s) :=
  List.decidableBAll (fun c => CharClass.quotedLabel c = true) s.toList

/-- A text of Unicode scalar values, which are the code points that are no surrogates. -/
def IsScalarText (s : String) : Prop :=
  ∀ c ∈ s.toList, c.toNat < 0xd800 ∨ 0xdfff < c.toNat ∧ c.toNat ≤ 0x10ffff

theorem isScalarText (s : String) : IsScalarText s := by
  intro c _
  have h : c.toNat < 0xd800 ∨ 0xdfff < c.toNat ∧ c.toNat < 0x110000 := c.valid
  omega

/-- A double that can be written: finite, infinite, or the one plain value that is no number. -/
def Decimal.IsLiteral : Decimal → Prop
  | .finite .. | .infinity _ => True
  | .nan negative signaling payload => negative = false ∧ signaling = false ∧ payload = 0

/-- The number of bytes of an integrity hash. -/
def digestLength : Nat := 32

/-- What the names and texts of an import may be. -/
structure ImportModel where
  /-- A component of a local path. -/
  component : String → Prop
  address : Url String → Prop
  /-- The name of an environment variable. -/
  variableName : String → Prop

mutual

inductive ImportKind.WellFormed (M : ImportModel) : ImportKind String → Prop where
  | missing : ImportKind.WellFormed M .missing
  | path {anchor : Anchor} {components : List String} : components ≠ [] →
      (∀ c ∈ components, M.component c) → ImportKind.WellFormed M (.path anchor components)
  | url {address : Url String} : M.address address → ImportKind.WellFormed M (.url address)
  | urlUsing {address : Url String} {headers : Import String} : M.address address →
      Import.WellFormed M headers → headers.mode = .code →
      ImportKind.WellFormed M (.urlUsing address headers)
  | env {name : String} : M.variableName name → ImportKind.WellFormed M (.env name)

inductive Import.WellFormed (M : ImportModel) : Import String → Prop where
  | mk {kind : ImportKind String} {hash : Option Digest} {mode : ImportMode} :
      ImportKind.WellFormed M kind →
      (∀ digest, hash = some digest → digest.length = digestLength) →
      Import.WellFormed M (.mk kind hash mode)

end

/-- Every node of a tree is as the data model says. -/
inductive Tree.WellFormed (M : ImportModel) : Expr → Prop where
  | variable {name : String} {index : Int} : IsLabel name → 0 ≤ index →
      WellFormed M (.variable name index)
  | builtin {name : String} : name ∈ Vocabulary.builtins → WellFormed M (.builtin name)
  | lambda {param : String} {domain body : Expr} : IsLabel param → domain.WellFormed M →
      body.WellFormed M → WellFormed M (.lambda param domain body)
  | pi {param : String} {domain body : Expr} : IsLabel param → domain.WellFormed M →
      body.WellFormed M → WellFormed M (.pi param domain body)
  | app {function argument : Expr} : function.WellFormed M → argument.WellFormed M →
      WellFormed M (.app function argument)
  | letIn {bindings : List (Binding String Expr)} {body : Expr} : bindings ≠ [] →
      (∀ b ∈ bindings, IsLabel b.name) →
      (∀ b ∈ bindings, ∀ type, b.annotation = some type → type.WellFormed M) →
      (∀ b ∈ bindings, b.value.WellFormed M) → body.WellFormed M →
      WellFormed M (.letIn bindings body)
  | conditional {condition yes no : Expr} : condition.WellFormed M → yes.WellFormed M →
      no.WellFormed M → WellFormed M (.conditional condition yes no)
  | annotated {subject type : Expr} : subject.WellFormed M → type.WellFormed M →
      WellFormed M (.annotated subject type)
  | operation {operator : Operator} {left right : Expr} : left.WellFormed M →
      right.WellFormed M → WellFormed M (.operation operator left right)
  | merge {handler union : Expr} {type : Option Expr} : handler.WellFormed M →
      union.WellFormed M → (∀ t, type = some t → t.WellFormed M) →
      WellFormed M (.merge handler union type)
  | toMap {record : Expr} {type : Option Expr} : record.WellFormed M →
      (∀ t, type = some t → t.WellFormed M) → WellFormed M (.toMap record type)
  | emptyList {element : Expr} : element.WellFormed M → WellFormed M (.emptyList element)
  | list {elements : List Expr} : elements ≠ [] → (∀ e ∈ elements, e.WellFormed M) →
      WellFormed M (.list elements)
  | present {value : Expr} : value.WellFormed M → WellFormed M (.present value)
  | recordType {fields : List (String × Option Expr)} : fields ≠ [] →
      (∀ f ∈ fields, IsLabel f.1) → (∀ f ∈ fields, f.2 ≠ none) →
      (∀ f ∈ fields, ∀ value, f.2 = some value → value.WellFormed M) →
      WellFormed M (.recordType fields)
  | record {fields : List (String × Option Expr)} :
      (∀ f ∈ fields, IsLabel f.1) → (∀ f ∈ fields, f.2 ≠ none) →
      (∀ f ∈ fields, ∀ value, f.2 = some value → value.WellFormed M) →
      WellFormed M (.record fields)
  | union {alternatives : List (String × Option Expr)} :
      (∀ a ∈ alternatives, IsLabel a.1) →
      (∀ a ∈ alternatives, ∀ type, a.2 = some type → type.WellFormed M) →
      WellFormed M (.union alternatives)
  | field {record : Expr} {label : String} : record.WellFormed M → IsLabel label →
      WellFormed M (.field record label)
  | projection {record : Expr} {labels : List String} : record.WellFormed M →
      (∀ l ∈ labels, IsLabel l) → WellFormed M (.projection record labels)
  | projectionByType {record selector : Expr} : record.WellFormed M → selector.WellFormed M →
      WellFormed M (.projectionByType record selector)
  | text {chunks : List (String × Expr)} {suffix : String} :
      (∀ c ∈ chunks, IsScalarText c.1) → (∀ c ∈ chunks, c.2.WellFormed M) →
      IsScalarText suffix → WellFormed M (.text chunks suffix)
  | double {value : Decimal} : value.IsLiteral → WellFormed M (.double value)
  | natural {value : Int} : 0 ≤ value → WellFormed M (.natural value)
  | integer (value : Int) : WellFormed M (.integer value)
  | embedded {value : Import String} : value.WellFormed M → WellFormed M (.embedded value)

end DhallSyntax
