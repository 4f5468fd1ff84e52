import DhallSyntax.Grammar.Chain
import DhallSyntax.Grammar.Import
import DhallSyntax.Grammar.Literal

/-!
Expressions, from the loosest form to the tightest, and the body of every rule. The order of
alternatives matters: the first that matches is taken.
-/

namespace DhallSyntax.Grammar

/-! Forms with a body -/

/-- A name and its type in parentheses. -/
def binder : Grammar (String × Expr) := do
  whitespace
  expect "("
  whitespace
  let name ← call .nonreservedLabel
  whitespace
  expect ":"
  whitespace1
  let type ← call .expression
  whitespace
  expect ")"
  return (name, type)

def arrow : Grammar Unit := do
  whitespace
  let _ ← expectAny Vocabulary.arrowSpellings
  whitespace

/-- The colon before a type. -/
def colon : Grammar Unit := do
  whitespace
  expect ":"
  whitespace1

def lambdaExpression : Grammar Expr := do
  let _ ← expectAny Vocabulary.lambdaSpellings
  let (param, domain) ← binder
  arrow
  return .lambda param domain (← call .expression)

def ifExpression : Grammar Expr := do
  keyword "if"
  whitespace1
  let condition ← call .expression
  whitespace
  keyword "then"
  whitespace1
  let yes ← call .expression
  whitespace
  keyword "else"
  whitespace1
  return .conditional condition yes (← call .expression)

/-- The type of a definition, if one is written. -/
def bindingType : Grammar (Option Expr) := do
  if ← accept ":" then
    whitespace1
    let type ← call .expression
    whitespace
    return some type
  else
    return none

def letBinding : Grammar (Binding String Expr) := do
  keyword "let"
  whitespace1
  let name ← call .nonreservedLabel
  whitespace
  let annotation ← bindingType
  expect "="
  whitespace
  let value ← call .expression
  whitespace
  return { name, annotation, value }

def letExpression : Grammar Expr := do
  let first ← call .letBinding
  let rest ← many (call .letBinding)
  keyword "in"
  whitespace1
  return .letIn (first :: rest) (← call .expression)

def forallExpression : Grammar Expr := do
  unless ← accept "∀" do
    keyword "forall"
  let (param, domain) ← binder
  arrow
  return .pi param domain (← call .expression)

/-- A function type without a name for its argument. -/
def arrowExpression : Grammar Expr := do
  let domain ← call .operatorExpression
  arrow
  return .pi "_" domain (← call .expression)

def mergeExpression : Grammar Expr := do
  keyword "merge"
  whitespace1
  let handler ← call .importExpression
  whitespace1
  let union ← call .importExpression
  colon
  return .merge handler union (some (← call .applicationExpression))

def emptyListExpression : Grammar Expr := do
  expect "["
  whitespace
  expect "]"
  colon
  keyword "List"
  whitespace1
  return .emptyList (← call .importExpression)

def toMapExpression : Grammar Expr := do
  keyword "toMap"
  whitespace1
  let record ← call .importExpression
  colon
  return .toMap record (some (← call .applicationExpression))

def annotatedExpression : Grammar Expr := do
  let subject ← call .operatorExpression
  let type ← optional? do
    colon
    call .expression
  match type with
  | some type => return .annotated subject type
  | none => return subject

def expression : Grammar Expr :=
  nested <| choice
    [call .lambdaExpression, call .ifExpression, call .letExpression, call .forallExpression,
     call .arrowExpression, call .mergeExpression, call .emptyListExpression,
     call .toMapExpression, call .annotatedExpression]

/-! Operators, application and selection -/

/-- An operator with the whitespace around it. -/
def binaryOperator : Grammar Operator := do
  whitespace
  match ← look fun s => Operator.spellings.find? fun p => p.text.toList.isPrefixOf s with
  | some spelling =>
    advance spelling.text.length
    if spelling.needsWhitespace then whitespace1 else whitespace
    return spelling.operator
  | none => fail "an operator"

/-- An operator and its right operand. -/
def operatorTail : Grammar (Operator × Expr) := do
  let op ← binaryOperator
  return (op, ← call .applicationExpression)

def operatorExpression : Grammar Expr := do
  let first ← call .applicationExpression
  let chain ← foldMany operatorTail
    (fun chain (op, right) => chain.push Tree.operation op right) (Pending.start first)
  return chain.close Tree.operation

def applicationExpression : Grammar Expr := do
  let function ← call .firstApplicationExpression
  foldMany (do whitespace1; call .importExpression) Tree.app function

def mergeApplication : Grammar Expr := do
  keyword "merge"
  whitespace1
  let handler ← call .importExpression
  whitespace1
  return .merge handler (← call .importExpression) none

def someApplication : Grammar Expr := do
  keyword "Some"
  whitespace1
  return .present (← call .importExpression)

def toMapApplication : Grammar Expr := do
  keyword "toMap"
  whitespace1
  return .toMap (← call .importExpression) none

def firstApplicationExpression : Grammar Expr :=
  choice [mergeApplication, someApplication, toMapApplication, call .importExpression]

def importExpression : Grammar Expr :=
  choice [do return .embedded (← call .importClause), call .selectorExpression]

/-- The labels of a projection, from behind the opening brace. -/
def projectionLabels : Grammar (List String) := do
  whitespace
  if ← accept "," then whitespace
  let labels ← iterate [] fun labels => do
    if (← peek) == some '}' then return .inr labels
    else
      let labels := (← call .label) :: labels
      whitespace
      if ← accept "," then
        whitespace
        return .inl labels
      else
        return .inr labels
  expect "\x7d"
  return labels.reverse

/-- What is selected: a projection, a projection by type, or a field. -/
inductive Selector where
  | labels (labels : List String)
  | type (type : Expr)
  | label (label : String)

namespace Selector

def apply (record : Expr) : Selector → Expr
  | labels ls => .projection record ls
  | type t => .projectionByType record t
  | label l => .field record l

end Selector

/-- A dot and what is selected. -/
def selector : Grammar Selector := do
  whitespace
  expect "."
  whitespace
  if ← accept "\x7b" then
    return .labels (← projectionLabels)
  else if ← accept "(" then
    let type ← completeExpression
    expect ")"
    return .type type
  else
    return .label (← call .label)

def selectorExpression : Grammar Expr := do
  let record ← call .primitiveExpression
  foldMany selector Selector.apply record

/-! Primitive expressions -/

def parenthesized : Grammar Expr := do
  expect "("
  let value ← completeExpression
  expect ")"
  return value

def primitiveExpression : Grammar Expr :=
  choice
    [do return .double (← call .doubleLiteral),
     do return .natural (← call .naturalLiteral),
     do return .integer (← call .integerLiteral),
     call .textLiteral, call .recordExpression, call .unionType, call .listLiteral,
     call .identifier, parenthesized]

/-- A label, a separator and an expression. -/
def recordEntry (separators : List String) : Grammar (String × String × Expr) := do
  let label ← call .label
  whitespace
  let separator ← expectAny separators
  if separator == ":" then whitespace1 else whitespace
  return (label, separator, ← call .expression)

/-- The entries of a sequence behind its first one, each after a separating mark. A mark may also
stand before the closing character, which is left to be read. -/
def furtherEntries {α : Type} (mark : String) (closing : Char) (entry : Grammar α) :
    Grammar (List α) := do
  let entries ← iterate [] fun entries => do
    whitespace
    if ← accept mark then
      whitespace
      if (← peek) == some closing then return .inr entries
      else return .inl ((← entry) :: entries)
    else
      return .inr entries
  return entries.reverse

/-- The rest of a record that has entries. The first one decides which separator all must have. -/
def recordEntries : Grammar Expr := do
  let (label, separator, value) ← recordEntry [":", "="]
  let rest ← furtherEntries "," '}' do
    let (label, _, value) ← recordEntry [separator]
    return (label, some value)
  expect "\x7d"
  let fields := (label, some value) :: rest
  return if separator == ":" then .recordType fields else .record fields

/-- A record type or literal. Braces with nothing or only an equals sign between them are the
empty literal. -/
def recordExpression : Grammar Expr := do
  expect "\x7b"
  whitespace
  if ← accept "," then whitespace
  if ← accept "=" then
    whitespace
    if ← accept "," then whitespace
    expect "\x7d"
    return .record []
  else if ← accept "\x7d" then
    return .record []
  else
    recordEntries

/-- A label, and a type unless the alternative has none. -/
def unionAlternative : Grammar (String × Option Expr) := do
  let label ← call .label
  let type ← optional? do
    colon
    call .expression
  return (label, type)

def unionAlternatives : Grammar (List (String × Option Expr)) := do
  if (← peek) == some '>' then return []
  else
    let first ← unionAlternative
    return first :: (← furtherEntries "|" '>' unionAlternative)

def unionType : Grammar Expr := do
  expect "<"
  whitespace
  if ← accept "|" then whitespace
  let alternatives ← unionAlternatives
  expect ">"
  return .union alternatives

def listLiteral : Grammar Expr := do
  expect "["
  whitespace
  if ← accept "," then whitespace
  let first ← call .expression
  let rest ← furtherEntries "," ']' (call .expression)
  expect "]"
  return .list (first :: rest)

end DhallSyntax.Grammar

namespace DhallSyntax

/-- The body of every rule. -/
def Rule.body : (rule : Rule) → Grammar rule.Result
  | .doubleLiteral => Grammar.doubleLiteral
  | .naturalLiteral => Grammar.naturalLiteral
  | .integerLiteral => Grammar.integerLiteral
  | .label => Grammar.label
  | .nonreservedLabel => Grammar.nonreservedLabel
  | .identifier => Grammar.identifier
  | .textLiteral => Grammar.textLiteral
  | .doubleQuoteLiteral => Grammar.doubleQuoteLiteral
  | .singleQuoteLiteral => Grammar.singleQuoteLiteral
  | .importClause => Grammar.importClause
  | .importHashed => Grammar.importHashed
  | .importType => Grammar.importType
  | .localImport => Grammar.localImport
  | .httpImport => Grammar.httpImport
  | .envImport => Grammar.envImport
  | .expression => Grammar.expression
  | .lambdaExpression => Grammar.lambdaExpression
  | .ifExpression => Grammar.ifExpression
  | .letExpression => Grammar.letExpression
  | .letBinding => Grammar.letBinding
  | .forallExpression => Grammar.forallExpression
  | .arrowExpression => Grammar.arrowExpression
  | .mergeExpression => Grammar.mergeExpression
  | .emptyListExpression => Grammar.emptyListExpression
  | .toMapExpression => Grammar.toMapExpression
  | .annotatedExpression => Grammar.annotatedExpression
  | .operatorExpression => Grammar.operatorExpression
  | .applicationExpression => Grammar.applicationExpression
  | .firstApplicationExpression => Grammar.firstApplicationExpression
  | .importExpression => Grammar.importExpression
  | .selectorExpression => Grammar.selectorExpression
  | .primitiveExpression => Grammar.primitiveExpression
  | .recordExpression => Grammar.recordExpression
  | .unionType => Grammar.unionType
  | .listLiteral => Grammar.listLiteral

end DhallSyntax
