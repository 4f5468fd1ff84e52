import DhallSyntax.Tree.Basic

/-!
The named rules of the grammar. A rule has a name, which error reports list, often a description,
which their messages use, and the type of what it yields.
-/

namespace DhallSyntax

inductive Rule where
  | doubleLiteral
  | naturalLiteral
  | integerLiteral
  | label
  | nonreservedLabel
  | identifier
  | textLiteral
  | doubleQuoteLiteral
  | singleQuoteLiteral
  | importClause
  | importHashed
  | importType
  | localImport
  | httpImport
  | envImport
  | expression
  | lambdaExpression
  | ifExpression
  | letExpression
  | letBinding
  | forallExpression
  | arrowExpression
  | mergeExpression
  | emptyListExpression
  | toMapExpression
  | annotatedExpression
  | operatorExpression
  | applicationExpression
  | firstApplicationExpression
  | importExpression
  | selectorExpression
  | primitiveExpression
  | recordExpression
  | unionType
  | listLiteral
deriving DecidableEq, Repr

namespace Rule

/-- What a rule yields. -/
abbrev Result : Rule → Type
  | .doubleLiteral => Decimal
  | .naturalLiteral => Nat
  | .integerLiteral => Int
  | .label => String
  | .nonreservedLabel => String
  | .identifier => Expr
  | .textLiteral => Expr
  | .doubleQuoteLiteral => Expr
  | .singleQuoteLiteral => Expr
  | .importClause => Import String
  | .importHashed => Import String
  | .importType => ImportKind String
  | .localImport => ImportKind String
  | .httpImport => ImportKind String
  | .envImport => ImportKind String
  | .expression => Expr
  | .lambdaExpression => Expr
  | .ifExpression => Expr
  | .letExpression => Expr
  | .letBinding => Binding String Expr
  | .forallExpression => Expr
  | .arrowExpression => Expr
  | .mergeExpression => Expr
  | .emptyListExpression => Expr
  | .toMapExpression => Expr
  | .annotatedExpression => Expr
  | .operatorExpression => Expr
  | .applicationExpression => Expr
  | .firstApplicationExpression => Expr
  | .importExpression => Expr
  | .selectorExpression => Expr
  | .primitiveExpression => Expr
  | .recordExpression => Expr
  | .unionType => Expr
  | .listLiteral => Expr

def name : Rule → String
  | .doubleLiteral => "double_literal"
  | .naturalLiteral => "natural_literal"
  | .integerLiteral => "integer_literal"
  | .label => "label"
  | .nonreservedLabel => "nonreserved_label"
  | .identifier => "identifier"
  | .textLiteral => "text_literal"
  | .doubleQuoteLiteral => "double_quote_literal"
  | .singleQuoteLiteral => "single_quote_literal"
  | .importClause => "import_"
  | .importHashed => "import_hashed"
  | .importType => "import_type"
  | .localImport => "local_import"
  | .httpImport => "http_import"
  | .envImport => "env_import"
  | .expression => "expression"
  | .lambdaExpression => "lambda_expression"
  | .ifExpression => "if_expression"
  | .letExpression => "let_expression"
  | .letBinding => "let_binding"
  | .forallExpression => "forall_expression"
  | .arrowExpression => "arrow_expression"
  | .mergeExpression => "merge_expression"
  | .emptyListExpression => "empty_list_expression"
  | .toMapExpression => "to_map_expression"
  | .annotatedExpression => "annotated_expression"
  | .operatorExpression => "operator_expression"
  | .applicationExpression => "application_expression"
  | .firstApplicationExpression => "first_application_expression"
  | .importExpression => "import_expression"
  | .selectorExpression => "selector_expression"
  | .primitiveExpression => "primitive_expression"
  | .recordExpression => "record_expression"
  | .unionType => "union_type"
  | .listLiteral => "list_literal"

/-- What a message says is being parsed inside a rule. Rules that stand for no notion of the
language have none. -/
def description? : Rule → Option String
  | .doubleLiteral => some "a Double literal"
  | .naturalLiteral => some "a Natural literal"
  | .integerLiteral => some "an Integer literal"
  | .label => some "a label"
  | .nonreservedLabel => some "a variable name"
  | .identifier => some "an identifier"
  | .textLiteral => some "a text literal"
  | .doubleQuoteLiteral => some "a double-quoted text literal"
  | .singleQuoteLiteral => some "a multi-line text literal"
  | .importClause => some "an import"
  | .importHashed => some "an import"
  | .localImport => some "a local path"
  | .httpImport => some "a URL"
  | .envImport => some "an environment variable"
  | .expression => some "an expression"
  | .lambdaExpression => some "a lambda"
  | .ifExpression => some "an if expression"
  | .letExpression => some "a let binding"
  | .forallExpression => some "a forall"
  | .arrowExpression => some "a function type"
  | .mergeExpression => some "a merge expression"
  | .emptyListExpression => some "an empty list"
  | .toMapExpression => some "a toMap expression"
  | .annotatedExpression => some "an annotated expression"
  | .operatorExpression => some "an operator expression"
  | .applicationExpression => some "a function application"
  | .importExpression => some "an import or selector expression"
  | .selectorExpression => some "a field selection"
  | .primitiveExpression => some "a primitive expression"
  | .recordExpression => some "a record"
  | .unionType => some "a union type"
  | .listLiteral => some "a list"
  | .importType | .letBinding | .firstApplicationExpression => none

def all : List Rule :=
  [.doubleLiteral, .naturalLiteral, .integerLiteral, .label, .nonreservedLabel, .identifier,
   .textLiteral, .doubleQuoteLiteral, .singleQuoteLiteral, .importClause, .importHashed,
   .importType, .localImport, .httpImport, .envImport, .expression, .lambdaExpression,
   .ifExpression, .letExpression, .letBinding, .forallExpression, .arrowExpression,
   .mergeExpression, .emptyListExpression, .toMapExpression, .annotatedExpression,
   .operatorExpression, .applicationExpression, .firstApplicationExpression, .importExpression,
   .selectorExpression, .primitiveExpression, .recordExpression, .unionType, .listLiteral]

def ofName? (s : String) : Option Rule :=
  all.find? fun rule => rule.name == s

end Rule

end DhallSyntax
