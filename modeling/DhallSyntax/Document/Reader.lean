import DhallSyntax.Document.Writer

/-!
Documents as trees. Reading is lenient: many fields may be missing, numbers may be spelled in
other ways, and a text or an object may stand where a list should, for its characters or its keys.
The order in which fields are read decides which of two errors is reported.
-/

namespace DhallSyntax

namespace Document

/-- The fields of a node. Only an object has fields. -/
def fields (d : Document) : Except ReadError (List (Scalar × Document)) :=
  match d.opened with
  | .object entries => .ok entries
  | _ => .error .wrongType

/-- A field that must be there. -/
def required (key : String) (entries : List (Scalar × Document)) : Except ReadError Document :=
  match lookup key entries with
  | some d => .ok d
  | none => .error (.key key)

/-- A field that may be missing or null. -/
def optional? (key : String) (entries : List (Scalar × Document)) : Option Document :=
  match lookup key entries with
  | some .null | none => none
  | some d => some d

/-- What a document holds where a list is wanted: a text its characters, an object its keys. -/
def items (d : Document) : Except ReadError (List Document) :=
  match d.opened with
  | .list ds => .ok ds
  | .text s => .ok (s.toList.map fun c => .text (String.singleton c))
  | .object entries => .ok (entries.map fun entry => .scalar entry.1)
  | _ => .error .wrongType

/-- The items of a field that may be missing. -/
def optionalItems (key : String) (entries : List (Scalar × Document)) :
    Except ReadError (List Document) :=
  ((lookup key entries).getD (.list [])).items

/-- One of the names of a set. Lists and objects cannot be names at all. -/
def member {α : Type} (ofName? : String → Option α) (d : Document) : Except ReadError α :=
  match d with
  | .text s =>
    match ofName? s with
    | some a => .ok a
    | none => .error (.key s)
  | .scalar s => .error (s.plainText?.elim .badNumber .key)
  | _ => .error .wrongType

/-- A variable index: a whole number, a fraction without its decimals, or a decimal text. -/
def index : Document → Except ReadError Int
  | .int n => .ok n
  | .bool b => .ok (if b then 1 else 0)
  | .float (.finite negative m e) => .ok (Binary64.truncate negative m e)
  | .float (.infinity _) => .error .infiniteIndex
  | .float .nan => .error .badNumber
  | .text s =>
    match Numeral.readLimited? s.toList with
    | some n => .ok n
    | none => .error .badNumber
  | _ => .error .wrongType

/-- A decimal, from a number or from any spelling of one. -/
def decimal (d : Document) : Except ReadError Decimal :=
  match d.plainText? with
  | none => .error .badNumber
  | some s =>
    match Decimal.read? s with
    | some value => .ok value
    | none => .error .badDecimal

/-- Pairs of hexadecimal digits, with blanks between the pairs. -/
def hashBytes? : List Char → Option Digest
  | [] => some []
  | c :: rest =>
    if isAsciiBlank c then hashBytes? rest
    else
      match rest with
      | d :: rest =>
        if c.isAlphanum && d.isAlphanum then
          match Numeral.digitValue? c, Numeral.digitValue? d with
          | some high, some low =>
            if high < 16 && low < 16 then
              (hashBytes? rest).map (UInt8.ofNat (high * 16 + low) :: ·)
            else none
          | _, _ => none
        else none
      | [] => none

/-- A digest, unless it is missing or null. -/
def digest (d : Option Document) : Except ReadError (Option Digest) :=
  match d with
  | none => .ok none
  | some (.text s) =>
    match hashBytes? s.toList with
    | some bytes => .ok (some bytes)
    | none => .error .badHash
  | some _ => .error .wrongType

def mode (entries : List (Scalar × Document)) : Except ReadError ImportMode :=
  ((lookup "mode" entries).getD (.text ImportMode.code.name)).member ImportMode.ofName?

/-- Refuses a kind that is not known. -/
def refuseKind {α : Type} (refusal : String → ReadError) (kind : Document) : Except ReadError α :=
  .error ((shown? kind).elim .badNumber refusal)

end Document

namespace Tree

open Document

variable {τ ν : Type}

def readOptionalText (leaves : Leaves τ ν) (d : Option Document) :
    Except ReadError (Option τ) :=
  match d with
  | some d => some <$> leaves.readText d
  | none => .ok none

/-- Reads a part that may be missing or null. -/
def readOptional {α : Type} (read : Document → Except ReadError α) (d : Option Document) :
    Except ReadError (Option α) :=
  match d with
  | some d => some <$> read d
  | none => .ok none

section
variable (leaves : Leaves τ ν) (read : Document → Except ReadError (Tree τ ν))

/-- Reads a field that is a node. -/
def readField (key : String) (entries : List (Scalar × Document)) :
    Except ReadError (Tree τ ν) := do
  read (← required key entries)

def readName (key : String) (entries : List (Scalar × Document)) : Except ReadError τ := do
  leaves.readText (← required key entries)

def readEntry (d : Document) : Except ReadError (τ × Option (Tree τ ν)) := do
  let entries ← d.fields
  let label ← readName leaves "label" entries
  return (label, ← readOptional read (optional? "value" entries))

def readChunk (d : Document) : Except ReadError (τ × Tree τ ν) := do
  let entries ← d.fields
  let text ← readName leaves "text" entries
  return (text, ← readField read "expression" entries)

def readBinding (d : Document) : Except ReadError (Binding τ (Tree τ ν)) := do
  let entries ← d.fields
  let name ← readName leaves "name" entries
  let annotation ← readOptional read (optional? "annotation" entries)
  let value ← readField read "value" entries
  return { name, annotation, value }

/-- The headers of a remote import, which have to be an import themselves. -/
def readHeaders (entries : List (Scalar × Document)) : Except ReadError (Option (Import τ)) := do
  match ← readOptional read (optional? "headers" entries) with
  | none => return none
  | some (.embedded headers) => return some headers
  | some other => throw (.headers other.nodeName)

def readRemote (entries : List (Scalar × Document)) : Except ReadError (ImportKind τ) := do
  let headers ← readHeaders read entries
  let scheme ← (← required "scheme" entries).member Scheme.ofName?
  let host ← readName leaves "host" entries
  let path ← (← optionalItems "path" entries).mapM leaves.readText
  let userinfo ← readOptionalText leaves (optional? "userinfo" entries)
  let port ← readOptionalText leaves (optional? "port" entries)
  let query ← readOptionalText leaves (optional? "query" entries)
  let address : Url τ := { scheme, host, path, userinfo, port, query }
  match headers with
  | some headers => return .urlUsing address headers
  | none => return .url address

def readImportKind (d : Document) : Except ReadError (ImportKind τ) := do
  let entries ← d.fields
  match ← required "kind" entries with
  | .text "Missing" => return .missing
  | .text "Local" =>
    let anchor ← (← required "anchor" entries).member Anchor.ofName?
    let components ← (← required "components" entries).items
    return .path anchor (← components.mapM leaves.readText)
  | .text "Remote" => readRemote leaves read entries
  | .text "EnvVar" => return .env (← readName leaves "name" entries)
  | kind => refuseKind .unknownImportKind kind

/-- Reads the node of a given kind from its fields, with a reader for the nodes inside. -/
def readNode (entries : List (Scalar × Document)) : String → Except ReadError (Tree τ ν)
  | "Variable" => do
    let name ← readName leaves "name" entries
    return .variable name (← ((lookup "index" entries).getD (.int 0)).index)
  | "Builtin" => do return .builtin (← readName leaves "name" entries)
  | "Lambda" => do
    let param ← readName leaves "param" entries
    let domain ← readField read "param_type" entries
    return .lambda param domain (← readField read "body" entries)
  | "Pi" => do
    let param ← readName leaves "param" entries
    let domain ← readField read "param_type" entries
    return .pi param domain (← readField read "body" entries)
  | "App" => do
    let function ← readField read "fn" entries
    return .app function (← readField read "arg" entries)
  | "Let" => do
    let bindings ← (← (← required "bindings" entries).items).mapM (readBinding leaves read)
    return .letIn bindings (← readField read "body" entries)
  | "If" => do
    let condition ← readField read "condition" entries
    let yes ← readField read "true_branch" entries
    return .conditional condition yes (← readField read "false_branch" entries)
  | "Annotated" => do
    let subject ← readField read "expression" entries
    return .annotated subject (← readField read "annotation" entries)
  | "Operator" => do
    let operator ← (← required "op" entries).member Operator.ofName?
    let left ← readField read "lhs" entries
    return .operation operator left (← readField read "rhs" entries)
  | "Merge" => do
    let handler ← readField read "handler" entries
    let cases ← readField read "union" entries
    return .merge handler cases (← readOptional read (optional? "annotation" entries))
  | "ToMap" => do
    let subject ← readField read "expression" entries
    return .toMap subject (← readOptional read (optional? "annotation" entries))
  | "EmptyList" => do return .emptyList (← readField read "element_type" entries)
  | "NonEmptyList" => do
    return .list (← (← (← required "elements" entries).items).mapM read)
  | "Some" => do return .present (← readField read "expression" entries)
  | "RecordType" => do
    return .recordType (← (← optionalItems "fields" entries).mapM (readEntry leaves read))
  | "RecordLiteral" => do
    return .record (← (← optionalItems "fields" entries).mapM (readEntry leaves read))
  | "UnionType" => do
    return .union (← (← optionalItems "alternatives" entries).mapM (readEntry leaves read))
  | "Field" => do
    let subject ← readField read "record" entries
    return .field subject (← readName leaves "label" entries)
  | "Projection" => do
    let subject ← readField read "record" entries
    let labels ← (← required "labels" entries).items
    return .projection subject (← labels.mapM leaves.readText)
  | "ProjectionByType" => do
    let subject ← readField read "record" entries
    return .projectionByType subject (← readField read "selector" entries)
  | "TextLiteral" => do
    let chunks ← (← optionalItems "chunks" entries).mapM (readChunk leaves read)
    return .text chunks (← leaves.readText ((lookup "suffix" entries).getD (.text "")))
  | "DoubleLiteral" => do return .double (← (← required "value" entries).decimal)
  | "NaturalLiteral" => do return .natural (← leaves.readNumber (← required "value" entries))
  | "IntegerLiteral" => do return .integer (← leaves.readNumber (← required "value" entries))
  | "Import" => do
    let hash := optional? "hash" entries
    let kind ← readImportKind leaves read (← required "import_kind" entries)
    let hash ← digest hash
    return .embedded (.mk kind hash (← mode entries))
  | kind => refuseKind .unknownKind (.text kind)

end

/-- Reads a tree that is no deeper than a bound. -/
def readWithin (leaves : Leaves τ ν) : (depth : Nat) → Document → Except ReadError (Tree τ ν)
  | 0, _ => .error .tooDeep
  | depth + 1, d => do
    let entries ← d.fields
    match ← required "kind" entries with
    | .text kind => readNode leaves (readWithin leaves depth) entries kind
    | kind => refuseKind .unknownKind kind

/-- Reads a tree from a document. -/
def ofDocument (leaves : Leaves τ ν) (d : Document) : Except ReadError (Tree τ ν) :=
  readWithin leaves depthLimit d

end Tree

/-- The trees of documents, whose names and texts may be any document. -/
abbrev LooseTree := Tree Document LooseNumber

namespace LooseTree

/-- A tree as a document, unless it is too deep or one of its names has no end. -/
def toDocument? (t : LooseTree) : Option Document :=
  (Tree.serialize? .loose t).filter fun d => !d.isEndless

def ofDocument (d : Document) : Except ReadError LooseTree := Tree.ofDocument .loose d

end LooseTree

namespace Expr

/-- An expression as a document, unless it is too deep. -/
def toDocument? (e : Expr) : Option Document := Tree.serialize? .strict e

def ofDocument (d : Document) : Except ReadError Expr := Tree.ofDocument .strict d

end Expr

end DhallSyntax
