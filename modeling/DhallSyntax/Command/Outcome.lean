import DhallSyntax.Command.Basic
import DhallSyntax.Grammar.Reference
import DhallSyntax.Text.Terminal

/-!
What the commands print and write, given what is in the file that they read.
-/

namespace DhallSyntax.Command

/-- What is found under the name of a file. -/
inductive FileContent where
  | text (content : String)
  | missing
  /-- It cannot be read, for a reason given by the system. -/
  | unreadable (reason : String)
deriving DecidableEq, Repr

/-- The effects of a command. -/
structure Outcome where
  exitCode : Nat
  output : List String
  errors : List String
  /-- A file that is written, and its text. -/
  written : Option (String × String)
deriving DecidableEq, Repr

namespace Outcome

def success (output : List String) : Outcome := ⟨0, output, [], none⟩

def failure (errors : List String) : Outcome := ⟨1, [], errors, none⟩

/-- The arguments were wrong. -/
def usageError : Outcome := ⟨2, [], ["Error: wrong arguments; see --help"], none⟩

/-- What happens where marked-up text cannot be shown. -/
def unprintable : Outcome := failure []

end Outcome

/-- Line ends of all systems as line feeds. -/
def unifyLineEnds : List Char → List Char
  | '\r' :: '\n' :: rest => '\n' :: unifyLineEnds rest
  | '\r' :: rest => '\n' :: unifyLineEnds rest
  | c :: rest => c :: unifyLineEnds rest
  | [] => []

/-- A line behind a label in colour. -/
def labelled (colour label rest : String) : String :=
  "[" ++ colour ++ "]" ++ label ++ "[/" ++ colour ++ "]" ++ rest

/-- Failure with an error that names a file as it was given. -/
def fileFailure (text : String) : Outcome :=
  ((Markup.shown? (labelled "red" "Error:" (" " ++ text))).map fun shown =>
    Outcome.failure (Terminal.lines shown)).getD .unprintable

/-- The lines that report an error of a source: what and where, an excerpt, and what was expected
there. -/
def syntaxErrorLines? (file : String) (e : SyntaxError) : Option (List String) := do
  let head ← Terminal.markedLines? <|
    labelled "red" e.kind.name <|
      " in " ++ Markup.escape file ++ ":" ++ e.location.text ++ ": " ++ Markup.escape e.message
  let excerpt := if e.excerpt.isEmpty then [] else Terminal.plainLines e.excerpt
  let expected ←
    if e.expected.isEmpty then some []
    else
      Terminal.markedLines? <|
        labelled "dim" ("expected: " ++ Markup.escape (", ".intercalate e.expected)) ""
  return head ++ excerpt ++ expected

def parseFailure (file : String) : ParseError → Outcome
  | .source e => ((syntaxErrorLines? file e).map Outcome.failure).getD .unprintable
  | .stackExhausted =>
    .failure [ErrorKind.nesting.name ++ " in " ++ file ++ ": expression is nested too deeply"]
  | .numberRange => .failure []

/-- What is said of an expression that has no text. -/
def WriteError.message : WriteError → String
  | .tooDeep => "expression is nested too deeply to serialize"
  | .longInteger =>
    "Exceeds the limit (4300 digits) for integer string conversion; " ++
      "use sys.set_int_max_str_digits() to increase the limit"

def writeFailure (file : String) (e : WriteError) : Outcome :=
  fileFailure <|
    "Cannot serialize " ++ Markup.escape file ++ ": " ++ Markup.escape (WriteError.message e)

def checkOutcome (settings : Settings) (file source : String) : Outcome :=
  match parse settings source with
  | .error e => parseFailure file e
  | .ok _ =>
    let line := labelled "green" "OK" (" " ++ Markup.escape file ++ ": no syntax errors")
    ((Terminal.markedLines? line).map Outcome.success).getD .unprintable

/-- A text that was written to a file. -/
def writtenOutcome (output text : String) : Outcome :=
  let line := labelled "green" "AST written to" (" " ++ output)
  let printed := ((Terminal.markedLines? line).map Outcome.success).getD .unprintable
  { printed with written := some (output, text) }

def parseOutcome (settings : Settings) (file : String) (format : Format) (output : Option String)
    (source : String) : Outcome :=
  match parse settings source with
  | .error e => parseFailure file e
  | .ok e =>
    match e.write format with
    | .error cause => writeFailure file cause
    | .ok text =>
      match output with
      | some name => writtenOutcome name text
      | none => .success (Terminal.numbered text)

/-- The lines that tell which commands there are. -/
def usage : List String :=
  ["Usage: dhall-lang [--max-depth N] [--no-memoize] [-v] COMMAND",
   "  check FILE    tell whether a source is well formed",
   "  parse FILE [--format json|yaml] [-o OUTPUT]    write the tree of a source",
   "  grammar       print the grammar",
   "  version       print the version"]

/-- The outcome of an action on a source text. -/
def sourceOutcome (settings : Settings) (action : Action) (source : String) : Outcome :=
  match action with
  | .check file => checkOutcome settings file source
  | .parse file format output => parseOutcome settings file format output source
  | .grammar => .success (Terminal.plainLines Reference.fullGrammar)
  | .version => .success ["dhall-lang v" ++ Vocabulary.version]
  | .help => .success usage

/-- The outcome of a command on the content of its file. -/
def Invocation.outcome (i : Invocation) (content : FileContent) : Outcome :=
  let file := i.source?.getD ""
  match content with
  | .missing => fileFailure ("File not found: " ++ file)
  | .unreadable reason => fileFailure ("Cannot read " ++ file ++ ": " ++ reason)
  | .text source =>
    sourceOutcome i.settings i.action (String.ofList (unifyLineEnds source.toList))

end DhallSyntax.Command
