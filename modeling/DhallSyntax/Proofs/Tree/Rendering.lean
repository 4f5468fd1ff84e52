import DhallSyntax.Grammar.Import
import DhallSyntax.Proofs.Tree.WellFormed
import DhallSyntax.Text.Quoted

/-!
Trees as source texts. Every expression inside another one stands in parentheses of its own, labels
in backquotes, texts, path components and names of environment variables in double quotes, and a
single space between any two tokens.
-/

namespace DhallSyntax.Rendering

def word (s : String) : List Char :=
  s.toList

/-! ## Leaves -/

def label (s : String) : List Char :=
  '\x60' :: (s.toList ++ ['\x60'])

/-- The letter after a backslash that stands for a character, if there is one. -/
def letter? (table : EscapeTable) (c : Char) : Option Char :=
  (table.find? fun entry => entry.2 == c).map Prod.fst

/-- A character of a text literal. What cannot stand for itself and has no letter is given by its
code point. -/
def textChar (c : Char) : List Char :=
  match letter? EscapeTable.text c with
  | some letter => ['\\', letter]
  | none =>
    if CharClass.printable c then [c] else '\\' :: 'u' :: (hexDigits 4 c.toNat).toList

def text (s : String) : List Char :=
  s.toList.flatMap textChar

/-- A character of the name of an environment variable. -/
def nameChar (c : Char) : List Char :=
  match letter? EscapeTable.environment c with
  | some letter => ['\\', letter]
  | none => [c]

def natural (n : Nat) : List Char :=
  Numeral.digitsOf n

/-- An integer with its sign. -/
def integer (n : Int) : List Char :=
  (if n < 0 then '-' else '+') :: Numeral.digitsOf n.natAbs

/-- A variable with its index. -/
def indexed (name : String) (index : Nat) : List Char :=
  label name ++ word " @ " ++ natural index

/-- A double with all digits of its coefficient and its exponent. -/
def double : Decimal → List Char
  | .finite negative coefficient exponent =>
    (if negative then ['-'] else []) ++ Numeral.digitsOf coefficient ++
      'e' :: (Numeral.write exponent).toList
  | .infinity negative => word (if negative then "-Infinity" else "Infinity")
  | .nan .. => word "NaN"

/-! ## Imports -/

/-- A component of a path. An empty one, which only a URL has, stands there without quotes. -/
def component (s : String) : List Char :=
  if s.toList.isEmpty then ['/'] else '/' :: '"' :: (s.toList ++ ['"'])

def anchor : Anchor → List Char
  | .parent => ['.', '.']
  | .here => ['.']
  | .home => ['~']
  | .absolute => []

/-- The URL from its host on. -/
def fromHost (u : Url String) : List Char :=
  u.host.toList ++ (u.port.elim [] fun port => ':' :: port.toList) ++ u.path.flatMap component ++
    u.query.elim [] fun query => '?' :: query.toList

def address (u : Url String) : List Char :=
  u.scheme.text.toList ++ word "://" ++ (u.userinfo.elim [] fun user => user.toList ++ ['@']) ++
    fromHost u

def digest (d : Digest) : List Char :=
  d.flatMap fun byte => (hexDigits 2 byte.toNat).toList

def hash : Option Digest → List Char
  | none => []
  | some d => word " sha256:" ++ digest d

def mode : ImportMode → List Char
  | .code => []
  | .rawText => word " as Text"
  | .location => word " as Location"

mutual

def importKind : ImportKind String → List Char
  | .missing => word "missing"
  | .path a components => anchor a ++ components.flatMap component
  | .url u => address u
  | .urlUsing u headers => address u ++ word " using ( " ++ hashed headers ++ word " )"
  | .env name => word "env:\"" ++ name.toList.flatMap nameChar ++ ['"']

/-- An import without its mode. -/
def hashed : Import String → List Char
  | .mk kind h _ => importKind kind ++ hash h

end

/-! ## Expressions -/

/-- A text in parentheses. -/
def grouped (s : List Char) : List Char :=
  '(' :: ' ' :: (s ++ [' ', ')'])

/-- Texts with a mark between any two of them. -/
def separated (mark : Char) : List (List Char) → List Char
  | [] => []
  | [s] => s
  | s :: rest => s ++ ' ' :: mark :: ' ' :: separated mark rest

/-- A list between an opening and a closing character. -/
def enclosed (opening mark closing : Char) (items : List (List Char)) : List Char :=
  opening :: ' ' :: ((if items.isEmpty then [] else separated mark items ++ [' ']) ++ [closing])

/-- A label with a separator and what is behind it, if anything is. -/
def entry (separator : Char) (l : String) : Option (List Char) → List Char
  | none => label l
  | some value => label l ++ ' ' :: separator :: ' ' :: grouped value

/-- An annotation, with the space in front of it. -/
def annotation : Option (List Char) → List Char
  | none => []
  | some type => word " : " ++ grouped type

/-- A function or its type, from the mark that opens it. -/
def binding (opening : String) (param : String) (domain body : List Char) : List Char :=
  word opening ++ label param ++ word " : " ++ grouped domain ++ word " ) → " ++
    grouped body

/-- Words, each with a space behind it, and an operand. -/
def behind (words : String) (operand : List Char) : List Char :=
  word words ++ grouped operand

def conditional (condition yes no : List Char) : List Char :=
  behind "if " condition ++ ' ' :: behind "then " yes ++ ' ' :: behind "else " no

def merge (handler union : List Char) (type : Option (List Char)) : List Char :=
  behind "merge " handler ++ ' ' :: grouped union ++ annotation type

/-- What is selected from a record. -/
def selection (record selector : List Char) : List Char :=
  grouped record ++ word " . " ++ selector

/-- A part of a text with the expression that ends it. -/
def chunk (s : String) (value : List Char) : List Char :=
  text s ++ word "$\x7b " ++ grouped value ++ word " \x7d"

/-- A definition, with a space behind it. -/
def definition (name : String) (type : Option (List Char)) (value : List Char) : List Char :=
  word "let " ++ label name ++ annotation type ++ word " = " ++ grouped value ++ [' ']

mutual

def chars : Expr → List Char
  | .variable name index => indexed name index.toNat
  | .builtin name => name.toList
  | .lambda param domain body => binding "λ ( " param (chars domain) (chars body)
  | .pi param domain body => binding "∀ ( " param (chars domain) (chars body)
  | .app function argument => grouped (chars function) ++ ' ' :: grouped (chars argument)
  | .letIn bindings body => bindingsChars bindings ++ behind "in " (chars body)
  | .conditional condition yes no => conditional (chars condition) (chars yes) (chars no)
  | .annotated subject type => grouped (chars subject) ++ annotation (some (chars type))
  | .operation operator left right =>
    grouped (chars left) ++ ' ' :: operator.symbol.toList ++ ' ' :: grouped (chars right)
  | .merge handler union type => merge (chars handler) (chars union) (optionChars type)
  | .toMap record type => behind "toMap " (chars record) ++ annotation (optionChars type)
  | .emptyList element => behind "[ ] : List " (chars element)
  | .list elements => enclosed '[' ',' ']' (listChars elements)
  | .present value => behind "Some " (chars value)
  | .recordType fields => enclosed '{' ',' '}' (entriesChars ':' fields)
  | .record fields => enclosed '{' ',' '}' (entriesChars '=' fields)
  | .union alternatives => enclosed '<' '|' '>' (entriesChars ':' alternatives)
  | .field record l => selection (chars record) (label l)
  | .projection record labels =>
    selection (chars record) (enclosed '{' ',' '}' (labels.map label))
  | .projectionByType record selector =>
    selection (chars record) (grouped (grouped (chars selector)))
  | .text chunks suffix => '"' :: (chunksChars chunks ++ text suffix ++ ['"'])
  | .double value => double value
  | .natural value => natural value.toNat
  | .integer value => integer value
  | .embedded i => hashed i ++ mode i.mode

def optionChars : Option Expr → Option (List Char)
  | none => none
  | some e => some (chars e)

def listChars : List Expr → List (List Char)
  | [] => []
  | e :: rest => grouped (chars e) :: listChars rest

/-- Labels with a separator and the expression behind it, if there is one. -/
def entriesChars (separator : Char) : List (String × Option Expr) → List (List Char)
  | [] => []
  | (l, value) :: rest => entry separator l (optionChars value) :: entriesChars separator rest

/-- The parts of a text that end in an expression. -/
def chunksChars : List (String × Expr) → List Char
  | [] => []
  | (s, e) :: rest => chunk s (chars e) ++ chunksChars rest

def bindingsChars : List (Binding String Expr) → List Char
  | [] => []
  | ⟨name, type, value⟩ :: rest =>
    definition name (optionChars type) (chars value) ++ bindingsChars rest

end

end DhallSyntax.Rendering

namespace DhallSyntax

/-- The names and texts of imports that can be written: their characters are those that may stand in
a source or have an escape, and the parts of a URL end where the part is over. -/
def ImportModel.readable : ImportModel where
  component s := s ≠ "" ∧ ∀ c ∈ s.toList, Grammar.quotedPathChar c = true
  address url :=
    Host.length? url.host.toList = some url.host.toList.length ∧
    (∀ user, url.userinfo = some user →
      Host.runLength Host.userinfoChar user.toList = user.toList.length) ∧
    (∀ port, url.port = some port → ∀ c ∈ port.toList, CharClass.digit c = true) ∧
    (∀ component ∈ url.path, ∀ c ∈ component.toList, Grammar.quotedPathChar c = true) ∧
    ∀ query, url.query = some query →
      Host.runLength Host.queryChar query.toList = query.toList.length
  variableName s := s ≠ "" ∧ ∀ c ∈ s.toList,
    Grammar.environmentChar c = true ∨ ∃ letter, (letter, c) ∈ EscapeTable.environment

/-- The source text of a tree. -/
def Expr.rendered (e : Expr) : String :=
  String.ofList (Rendering.chars e)

end DhallSyntax
