import DhallSyntax.Operator

/-!
The fixed words of the language: keywords, which no unquoted label may be, builtins, which no
variable may be, and the spellings of lambda, forall and the arrow.
-/

namespace DhallSyntax

/-- The default bound on nested expressions. -/
def defaultMaxDepth : Nat := 26

namespace Vocabulary

/-- The version of the library. -/
def version : String := "0.1.0"

/-- The keywords with the names they are listed under. -/
def keywords : List (String × String) :=
  [("IF", "if"), ("THEN", "then"), ("ELSE", "else"), ("LET", "let"), ("IN", "in"), ("AS", "as"),
   ("USING", "using"), ("MERGE", "merge"), ("MISSING", "missing"), ("INFINITY", "Infinity"),
   ("NAN", "NaN"), ("SOME", "Some"), ("TO_MAP", "toMap"), ("FORALL", "forall")]

/-- The name of a keyword. -/
def keyword? (word : String) : Option String :=
  (keywords.find? fun entry => entry.2 == word).map Prod.fst

def isKeyword (word : String) : Bool :=
  (keyword? word).isSome

/-- The builtins in the order of their characters. -/
def builtins : List String :=
  ["Bool", "Double", "Double/show", "False", "Integer", "Integer/clamp", "Integer/negate",
   "Integer/show", "Integer/toDouble", "Kind", "List", "List/build", "List/fold", "List/head",
   "List/indexed", "List/last", "List/length", "List/reverse", "Natural", "Natural/build",
   "Natural/even", "Natural/fold", "Natural/isZero", "Natural/odd", "Natural/show",
   "Natural/subtract", "Natural/toInteger", "None", "Optional", "Optional/build",
   "Optional/fold", "Sort", "Text", "Text/replace", "Text/show", "True", "Type"]

def isBuiltin (word : String) : Bool :=
  builtins.contains word

/-- Words that are no variable names. -/
def isReserved (word : String) : Bool :=
  isKeyword word || isBuiltin word

def lambdaSpellings : List String := ["λ", "\\"]

def forallSpellings : List String := ["∀", "forall"]

def arrowSpellings : List String := ["→", "->"]

end Vocabulary

end DhallSyntax
