/-!
Imports: what is read from elsewhere, the digest it must have, and how its text is used. They are
described here and never resolved. Names and texts are of a type `τ`, which is `String` for all
that comes from a source text.
-/

namespace DhallSyntax

/-- How the contents of an import are taken. -/
inductive ImportMode where
  | code
  | rawText
  | location
deriving DecidableEq, Repr

namespace ImportMode

def all : List ImportMode := [code, rawText, location]

def name : ImportMode → String
  | code => "CODE"
  | rawText => "RAW_TEXT"
  | location => "LOCATION"

/-- The word that asks for the mode; there is none in the source for `code`. -/
def word : ImportMode → String
  | code => "code"
  | rawText => "Text"
  | location => "Location"

def ofName? (s : String) : Option ImportMode :=
  all.find? fun mode => mode.name == s

end ImportMode

/-- What a local path is relative to. -/
inductive Anchor where
  | parent
  | here
  | home
  | absolute
deriving DecidableEq, Repr

namespace Anchor

def all : List Anchor := [parent, here, home, absolute]

def name : Anchor → String
  | parent => "PARENT"
  | here => "HERE"
  | home => "HOME"
  | absolute => "ABSOLUTE"

def symbol : Anchor → String
  | parent => ".."
  | here => "."
  | home => "~"
  | absolute => "/"

def ofName? (s : String) : Option Anchor :=
  all.find? fun anchor => anchor.name == s

end Anchor

inductive Scheme where
  | http
  | https
deriving DecidableEq, Repr

namespace Scheme

def all : List Scheme := [http, https]

def name : Scheme → String
  | http => "HTTP"
  | https => "HTTPS"

def text : Scheme → String
  | http => "http"
  | https => "https"

def ofName? (s : String) : Option Scheme :=
  all.find? fun scheme => scheme.name == s

end Scheme

/-- A URL in its parts, each without its separators and in the spelling of the source. A part
that is present and empty differs from one that is absent. -/
structure Url (τ : Type) where
  scheme : Scheme
  host : τ
  path : List τ
  userinfo : Option τ
  port : Option τ
  query : Option τ
deriving DecidableEq, Repr

namespace Url

/-- The authority as it stands in the URL. -/
def authority (u : Url String) : String :=
  (match u.userinfo with
    | some user => user ++ "@"
    | none => "") ++
  u.host ++
  match u.port with
  | some port => ":" ++ port
  | none => ""

/-- The whole URL. -/
def text (u : Url String) : String :=
  u.scheme.text ++ "://" ++ u.authority ++ String.join (u.path.map ("/" ++ ·)) ++
    match u.query with
    | some query => "?" ++ query
    | none => ""

end Url

/-- The bytes of an integrity hash. -/
abbrev Digest := List UInt8

mutual

/-- Where an import is read from. A URL may be sent with headers, which are an import too. -/
inductive ImportKind (τ : Type) where
  | missing
  | path (anchor : Anchor) (components : List τ)
  | url (address : Url τ)
  | urlUsing (address : Url τ) (headers : Import τ)
  | env (name : τ)

/-- An import with its digest, if one is given, and its mode. -/
inductive Import (τ : Type) where
  | mk (kind : ImportKind τ) (hash : Option Digest) (mode : ImportMode)

end

deriving instance DecidableEq, Repr for ImportKind, Import

namespace Import

variable {τ : Type}

def kind : Import τ → ImportKind τ
  | mk kind _ _ => kind

def hash : Import τ → Option Digest
  | mk _ hash _ => hash

def mode : Import τ → ImportMode
  | mk _ _ mode => mode

mutual

/-- How many imports there are, headers included. -/
def depth : Import τ → Nat
  | mk kind _ _ => kindDepth kind + 1

/-- How many imports stand in the headers. -/
def kindDepth : ImportKind τ → Nat
  | .urlUsing _ headers => depth headers
  | _ => 0

end

end Import

end DhallSyntax
