import DhallSyntax.Grammar.Basic
import DhallSyntax.Grammar.Host

/-!
Imports: local paths, URLs, environment variables and `missing`, each with an optional integrity
hash and mode.
-/

namespace DhallSyntax.Grammar

open CharClass

/-! Local paths -/

/-- A character of a quoted path component. -/
def quotedPathChar : CharClass := fun c => printable c && c != '"' && c != '/'

/-- A slash and a component, which may be quoted. -/
def pathComponent : Grammar String := do
  expect "/"
  if ← accept "\"" then
    let text ← takeWhile1 quotedPathChar "a path character"
    expect "\""
    return String.ofList text
  else
    return String.ofList (← takeWhile1 path "a path character")

def anchor : Grammar Anchor := do
  if ← accept ".." then return .parent
  else if ← accept "." then return .here
  else if ← accept "~" then return .home
  else return .absolute

def localImport : Grammar (ImportKind String) := do
  let anchor ← anchor
  let first ← pathComponent
  return .path anchor (first :: (← many pathComponent))

/-! URLs -/

/-- Takes as many characters as a pattern says. -/
def takeLength (length : List Char → Nat) : Grammar String := do
  let text ← look fun s => s.take (length s)
  advance text.length
  return String.ofList text

def scheme : Grammar Scheme := do
  if ← accept "https" then return .https
  else
    expect "http"
    return .http

/-- User information counts only before an at sign. -/
def userinfo : Grammar (Option String) :=
  optional? do
    let text ← takeLength (Host.runLength Host.userinfoChar)
    if ← accept "@" then return text else mismatch

def host : Grammar String := do
  match ← look Host.length? with
  | some n => takeLength fun _ => n
  | none => fail "a host name"

/-- What follows an optional mark, if the mark is there. -/
def marked (mark : String) (length : List Char → Nat) : Grammar (Option String) := do
  if ← accept mark then
    return some (← takeLength length)
  else
    return none

/-- A slash and a segment, which may be empty and may hold percent escapes. -/
def pathSegment : Grammar String := do
  advance 1
  takeLength (Host.runLength Host.segmentChar)

def urlPath : Grammar (List String) :=
  many do
    if ← look fun s => s.head? == some '/' then
      orElse pathComponent pathSegment
    else mismatch

/-- The import behind `using`, which may stand in parentheses. -/
def usingClause : Grammar (Import String) := do
  whitespace
  keyword "using"
  whitespace1
  if ← accept "(" then
    whitespace
    let headers ← call .importHashed
    whitespace
    expect ")"
    return headers
  else
    call .importHashed

def httpImport : Grammar (ImportKind String) := do
  let scheme ← scheme
  expect "://"
  let userinfo ← userinfo
  let host ← host
  let port ← marked ":" fun s => (s.takeWhile digit).length
  let path ← urlPath
  let query ← marked "?" (Host.runLength Host.queryChar)
  let address : Url String := { scheme, host, path, userinfo, port, query }
  match ← optional? usingClause with
  | some headers => return .urlUsing address headers
  | none => return .url address

/-! Environment variables -/

/-- An unquoted name: a letter or underscore, then letters, digits and underscores. -/
def bashName : Grammar String := do
  match ← peek with
  | some c =>
    if alpha c || c == '_' then
      return String.ofList (← takeWhile fun c => alphanumeric c || c == '_')
    else fail "an environment variable name"
  | none => fail "an environment variable name"

/-- A character that stands for itself in a quoted name. -/
def environmentChar : CharClass := fun c => printableAscii c && c != '"' && c != '='

/-- One step through a quoted name, which must not be empty. The state is the name in reverse. -/
def quotedNameStep (name : List Char) : Grammar (List Char ⊕ String) := do
  if (← look fun s => s.head? == some '"') && !name.isEmpty then
    advance 1
    return .inr (String.ofList name.reverse)
  else if ← accept "\\" then
    match (← peek).bind fun c => EscapeTable.environment.lookup c with
    | some meaning =>
      advance 1
      return .inl (meaning :: name)
    | none => fail "an escape sequence"
  else
    match ← takeIf environmentChar with
    | some c => return .inl (c :: name)
    | none => fail "an environment variable character"

def envImport : Grammar (ImportKind String) := do
  expect "env:"
  if ← accept "\"" then
    return .env (← iterate [] quotedNameStep)
  else
    return .env (← bashName)

/-! Kind, hash and mode -/

def importType : Grammar (ImportKind String) :=
  choice
    [do keyword "missing"; return .missing,
     call .localImport, call .httpImport, call .envImport]

/-- The bytes that pairs of hexadecimal digits stand for. -/
def bytesOf : List Char → Digest
  | a :: b :: rest => UInt8.ofNat (Numeral.positional 16 [a, b]) :: bytesOf rest
  | _ => []

/-- An integrity hash. Behind `sha256:` whitespace means that this is a variable with an
annotation; anything else has to be the right number of digits. -/
def integrityHash : Grammar Digest := do
  let annotation ← look fun s => "sha256:".toList.isPrefixOf s && Whitespace.starts (s.drop 7)
  if annotation then fail "a sha256 hash"
  else
    expect "sha256:"
    let run ← takeWhile hexDigit
    if run.length == Defect.hashDigits then
      return bytesOf run
    else
      abort (.defect (.hashLength run.length)) (run.length + 7)

def importHashed : Grammar (Import String) := do
  let kind ← call .importType
  let hash ← optional? do
    whitespace1
    integrityHash
  return .mk kind hash .code

def importMode : Grammar ImportMode :=
  choice
    [do keyword ImportMode.rawText.word; return .rawText,
     do keyword ImportMode.location.word; return .location,
     fail "'Text' or 'Location'"]

/-- An import with an optional mode. -/
def importClause : Grammar (Import String) := do
  let hashed ← call .importHashed
  let mode ← optional? do
    whitespace
    keyword "as"
    whitespace1
    importMode
  return .mk hashed.kind hashed.hash (mode.getD .code)

end DhallSyntax.Grammar
