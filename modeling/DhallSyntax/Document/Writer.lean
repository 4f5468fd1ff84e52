import DhallSyntax.Document.Leaves
import DhallSyntax.Tree.Basic

/-!
Trees as documents. Every node becomes an object that names its kind and holds all of its fields;
numbers and digests are texts, so that they survive any format.
-/

namespace DhallSyntax

/-- The bytes of a digest in lowercase hexadecimal. -/
def digestText (digest : Digest) : String :=
  String.join (digest.map fun byte => hexDigits 2 byte.toNat)

namespace Tree

variable {τ ν : Type}

def optionalText (leaves : Leaves τ ν) : Option τ → Document
  | some t => leaves.writeText t
  | none => .null

mutual

def importToDocument (leaves : Leaves τ ν) : Import τ → Document
  | .mk kind hash mode =>
    .object
      [("kind", .text "Import"),
       ("import_kind", importKindToDocument leaves kind),
       ("hash", (hash.map fun digest => Document.text (digestText digest)).getD .null),
       ("mode", .text mode.name)]

def importKindToDocument (leaves : Leaves τ ν) : ImportKind τ → Document
  | .missing => .object [("kind", .text "Missing")]
  | .path anchor components =>
    .object
      [("kind", .text "Local"), ("anchor", .text anchor.name),
       ("components", .list (components.map leaves.writeText))]
  | .url address => urlToDocument address .null
  | .urlUsing address headers => urlToDocument address (importToDocument leaves headers)
  | .env name => .object [("kind", .text "EnvVar"), ("name", leaves.writeText name)]
where
  urlToDocument (address : Url τ) (headers : Document) : Document :=
    .object
      [("kind", .text "Remote"),
       ("scheme", .text address.scheme.name),
       ("userinfo", optionalText leaves address.userinfo),
       ("host", leaves.writeText address.host),
       ("port", optionalText leaves address.port),
       ("path", .list (address.path.map leaves.writeText)),
       ("query", optionalText leaves address.query),
       ("headers", headers)]

end

mutual

/-- A tree as a document. -/
def toDocument (leaves : Leaves τ ν) : Tree τ ν → Document
  | .variable name index =>
    .object [("kind", .text "Variable"), ("name", leaves.writeText name), ("index", .int index)]
  | .builtin name => .object [("kind", .text "Builtin"), ("name", leaves.writeText name)]
  | .lambda param domain body =>
    .object
      [("kind", .text "Lambda"), ("param", leaves.writeText param),
       ("param_type", toDocument leaves domain), ("body", toDocument leaves body)]
  | .pi param domain body =>
    .object
      [("kind", .text "Pi"), ("param", leaves.writeText param),
       ("param_type", toDocument leaves domain), ("body", toDocument leaves body)]
  | .app function argument =>
    .object
      [("kind", .text "App"), ("fn", toDocument leaves function),
       ("arg", toDocument leaves argument)]
  | .letIn bindings body =>
    .object
      [("kind", .text "Let"), ("bindings", .list (bindingsToDocuments leaves bindings)),
       ("body", toDocument leaves body)]
  | .conditional condition yes no =>
    .object
      [("kind", .text "If"), ("condition", toDocument leaves condition),
       ("true_branch", toDocument leaves yes), ("false_branch", toDocument leaves no)]
  | .annotated subject type =>
    .object
      [("kind", .text "Annotated"), ("expression", toDocument leaves subject),
       ("annotation", toDocument leaves type)]
  | .operation operator left right =>
    .object
      [("kind", .text "Operator"), ("op", .text operator.name),
       ("lhs", toDocument leaves left), ("rhs", toDocument leaves right)]
  | .merge handler cases type =>
    .object
      [("kind", .text "Merge"), ("handler", toDocument leaves handler),
       ("union", toDocument leaves cases), ("annotation", optionToDocument leaves type)]
  | .toMap subject type =>
    .object
      [("kind", .text "ToMap"), ("expression", toDocument leaves subject),
       ("annotation", optionToDocument leaves type)]
  | .emptyList element =>
    .object [("kind", .text "EmptyList"), ("element_type", toDocument leaves element)]
  | .list elements =>
    .object [("kind", .text "NonEmptyList"), ("elements", .list (toDocuments leaves elements))]
  | .present value =>
    .object [("kind", .text "Some"), ("expression", toDocument leaves value)]
  | .recordType fields =>
    .object [("kind", .text "RecordType"), ("fields", .list (entriesToDocuments leaves fields))]
  | .record fields =>
    .object [("kind", .text "RecordLiteral"), ("fields", .list (entriesToDocuments leaves fields))]
  | .union alternatives =>
    .object
      [("kind", .text "UnionType"),
       ("alternatives", .list (entriesToDocuments leaves alternatives))]
  | .field subject label =>
    .object
      [("kind", .text "Field"), ("record", toDocument leaves subject),
       ("label", leaves.writeText label)]
  | .projection subject labels =>
    .object
      [("kind", .text "Projection"), ("record", toDocument leaves subject),
       ("labels", .list (labels.map leaves.writeText))]
  | .projectionByType subject selector =>
    .object
      [("kind", .text "ProjectionByType"), ("record", toDocument leaves subject),
       ("selector", toDocument leaves selector)]
  | .text chunks suffix =>
    .object
      [("kind", .text "TextLiteral"), ("chunks", .list (chunksToDocuments leaves chunks)),
       ("suffix", leaves.writeText suffix)]
  | .double value => .object [("kind", .text "DoubleLiteral"), ("value", .text value.text)]
  | .natural value =>
    .object [("kind", .text "NaturalLiteral"), ("value", .text (leaves.writeNumber value))]
  | .integer value =>
    .object [("kind", .text "IntegerLiteral"), ("value", .text (leaves.writeNumber value))]
  | .embedded value => importToDocument leaves value

def optionToDocument (leaves : Leaves τ ν) : Option (Tree τ ν) → Document
  | some t => toDocument leaves t
  | none => .null

def toDocuments (leaves : Leaves τ ν) : List (Tree τ ν) → List Document
  | [] => []
  | t :: rest => toDocument leaves t :: toDocuments leaves rest

def entriesToDocuments (leaves : Leaves τ ν) : List (τ × Option (Tree τ ν)) → List Document
  | [] => []
  | (label, value) :: rest =>
    .object [("label", leaves.writeText label), ("value", optionToDocument leaves value)] ::
      entriesToDocuments leaves rest

def chunksToDocuments (leaves : Leaves τ ν) : List (τ × Tree τ ν) → List Document
  | [] => []
  | (literal, value) :: rest =>
    .object [("text", leaves.writeText literal), ("expression", toDocument leaves value)] ::
      chunksToDocuments leaves rest

def bindingsToDocuments (leaves : Leaves τ ν) : List (Binding τ (Tree τ ν)) → List Document
  | [] => []
  | ⟨name, annotation, value⟩ :: rest =>
    .object
      [("name", leaves.writeText name), ("annotation", optionToDocument leaves annotation),
       ("value", toDocument leaves value)] ::
      bindingsToDocuments leaves rest

end

/-- The greatest depth of a tree that is written or read. -/
def depthLimit : Nat := 500

/-- A tree as a document, unless it is too deep. -/
def serialize? (leaves : Leaves τ ν) (t : Tree τ ν) : Option Document :=
  if t.depth ≤ depthLimit then some (toDocument leaves t) else none

end Tree

end DhallSyntax
