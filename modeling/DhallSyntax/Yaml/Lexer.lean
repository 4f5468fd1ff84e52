import DhallSyntax.Yaml.Mark
import DhallSyntax.Yaml.Scalar

/-!
A YAML text as tokens. A key without a question mark is only known as one when its colon comes, so
its token is put in then, in front of the tokens of the key itself.
-/

namespace DhallSyntax.Yaml

/-- Where a key without a question mark may have begun. -/
structure Candidate where
  /-- How many tokens come before it. -/
  tokens : Nat
  offset : Nat
  line : Nat
  column : Nat
  /-- Nothing but a key can stand there. -/
  required : Bool
deriving Repr

/-- How many characters a key may have. -/
def Candidate.longest : Nat := 1024

/-- A key ends on the line where it begins. -/
def Candidate.isStale (c : Candidate) (place : Cursor) : Bool :=
  c.line != place.line || Candidate.longest < place.offset - c.offset

/-- The tokens read so far and what the next ones depend on. -/
structure Lexer where
  place : Cursor
  /-- The tokens, the last one first. -/
  tokens : List Token
  /-- How many tokens there are. -/
  count : Nat
  /-- The columns of the open blocks, the innermost first. -/
  indents : List Nat
  /-- The candidate in the innermost flow collection, or outside of all. -/
  candidate : Option Candidate
  /-- The candidates around the open flow collections, the innermost first. -/
  outer : List (Option Candidate)
  /-- Whether a key may begin here. -/
  allowsKey : Bool

namespace Lexer

def start (s : List Char) : Lexer := ⟨.start s, [], 0, [], none, [], true⟩

def inFlow (l : Lexer) : Bool := !l.outer.isEmpty

/-- A step that reads tokens. -/
abbrev Lex := StateT Lexer (Except Error)

def fail {α : Type} : Lex α := throw .malformed

def scan {α : Type} (part : Scan α) : Lex α := do
  let l ← get
  let (found, place) ← part l.place
  set { l with place := place }
  return found

def push (t : Token) : Lex Unit :=
  modify fun l => { l with tokens := t :: l.tokens, count := l.count + 1 }

/-- Puts a token in behind a number of others. -/
def insert (before : Nat) (t : Token) : Lex Unit :=
  modify fun l =>
    { l with tokens := l.tokens.insertIdx (l.count - before) t, count := l.count + 1 }

def allowKey (allows : Bool) : Lex Unit := modify fun l => { l with allowsKey := allows }

/-! Keys -/

/-- Gives up the candidates that cannot become keys any more. -/
def dropStale : Lex Unit := do
  let l ← get
  let isStale (c : Candidate) : Bool := c.isStale l.place
  let lost := ((l.candidate :: l.outer).filterMap id).filter isStale
  if lost.any Candidate.required then fail
  let fresh (c : Option Candidate) : Option Candidate := c.filter fun c => !isStale c
  set { l with candidate := fresh l.candidate, outer := l.outer.map fresh }

/-- Gives up the innermost candidate. -/
def dropCandidate : Lex Unit := do
  let l ← get
  if l.candidate.any Candidate.required then fail
  set { l with candidate := none }

/-- The next token may begin a key, if one may begin here. -/
def saveCandidate : Lex Unit := do
  if (← get).allowsKey then
    dropCandidate
    modify fun l =>
      { l with
        candidate := some
          { tokens := l.count
            offset := l.place.offset
            line := l.place.line
            column := l.place.column
            required := !l.inFlow && l.indents.head? == some l.place.column } }

/-! Blocks -/

/-- Closes the blocks that satisfy a condition on their columns, from the innermost on. Inside
flow collections indentation has no meaning. -/
def closeBlocks (closes : Nat → Bool) : Lex Unit :=
  modify fun l =>
    if l.inFlow then l
    else
      let closed := l.indents.takeWhile closes
      { l with
        indents := l.indents.drop closed.length
        tokens := closed.map (fun _ => Token.blockEnd) ++ l.tokens
        count := l.count + closed.length }

/-- Whether a block at a column would be deeper than all that are open. -/
def isDeeper (l : Lexer) (column : Nat) : Bool := l.indents.head?.all (· < column)

/-- Opens a block at the column of the next token, unless that is inside one. Such a token is not
allowed everywhere. -/
def openBlock (shape : Shape) : Lex Unit := do
  let l ← get
  unless l.inFlow do
    unless l.allowsKey do fail
    if l.isDeeper l.place.column then
      set { l with indents := l.place.column :: l.indents }
      push (.blockStart shape)

/-! Tokens -/

/-- Skips blanks, comments and line breaks; `true` if a line ended. -/
def toNextToken : (bound : List Char) → Scan Bool
  | [] => return false
  | _ :: bound => do
    Scan.skipSpaces
    Scan.skipComment
    match ← Scan.lineBreak? with
    | some _ =>
      let _ ← toNextToken bound
      return true
    | none => return false

/-- A token that ends all open blocks and cannot be part of a key. -/
def outermost (part : Scan Token) : Lex Unit := do
  closeBlocks fun _ => true
  dropCandidate
  allowKey false
  push (← scan part)

/-- A mark of one character. -/
def mark (t : Token) : Lex Unit := do
  scan (Scan.skip 1)
  push t

/-- A token that may begin a key. -/
def keyPart (part : Scan Token) : Lex Unit := do
  saveCandidate
  allowKey false
  push (← scan part)

def flowStart (shape : Shape) : Lex Unit := do
  saveCandidate
  modify fun l => { l with candidate := none, outer := l.candidate :: l.outer }
  allowKey true
  mark (.flowStart shape)

def flowEnd (shape : Shape) : Lex Unit := do
  dropCandidate
  let l ← get
  match l.outer with
  | [] => fail
  | candidate :: outer =>
    set { l with candidate := candidate, outer := outer }
    allowKey false
    mark (.flowEnd shape)

def separator : Lex Unit := do
  allowKey true
  dropCandidate
  mark .separator

def item : Lex Unit := do
  openBlock .list
  allowKey true
  dropCandidate
  mark .item

def key : Lex Unit := do
  openBlock .mapping
  allowKey !(← get).inFlow
  dropCandidate
  mark .key

/-- A colon makes the candidate a key, or stands for a value without key. -/
def value : Lex Unit := do
  let l ← get
  match l.candidate with
  | some c =>
    set { l with candidate := none }
    insert c.tokens .key
    if !l.inFlow && l.isDeeper c.column then
      modify fun l => { l with indents := c.column :: l.indents }
      insert c.tokens (.blockStart .mapping)
    allowKey false
  | none =>
    openBlock .mapping
    allowKey !l.inFlow
  mark .value

def block (isFolded : Bool) : Lex Unit := do
  allowKey true
  dropCandidate
  let least := (← get).indents.head?.getD 0 + 1
  push (.scalar false (← scan (Scan.block isFolded least)))

def plain : Lex Unit := do
  saveCandidate
  let l ← get
  let (text, broken) ← scan (Scan.plain l.inFlow (l.indents.head?.elim 0 (· + 1)))
  allowKey broken
  push (.scalar true text)

/-- Whether a plain scalar may begin with a character in front of another. -/
def beginsPlain (inFlow : Bool) (c : Char) (next : Option Char) : Bool :=
  !(isBlankOrBreak c || "-?:,[]\x7b\x7d#&*!|>'\"%@\x60".toList.contains c) ||
    (next.any (fun d => !isBlankOrBreak d) && (c == '-' || (!inFlow && (c == '?' || c == ':'))))

/-- The token that begins with a character. -/
def tokenFrom (c : Char) : Lex Unit := do
  let l ← get
  let place := l.place
  let standsAlone := place.endsAt 1 isBlankOrBreak
  if place.column = 0 && c == '%' then outermost do return .directive (← Scan.directive)
  else if place.column = 0 && place.isAtMark "---" then
    outermost do Scan.skip 3; return .documentStart
  else if place.column = 0 && place.isAtMark "..." then
    outermost do Scan.skip 3; return .documentEnd
  else if c == '[' then flowStart .list
  else if c == '{' then flowStart .mapping
  else if c == ']' then flowEnd .list
  else if c == '}' then flowEnd .mapping
  else if c == ',' then separator
  else if c == '-' && standsAlone then item
  else if c == '?' && (l.inFlow || standsAlone) then key
  else if c == ':' && (l.inFlow || standsAlone) then value
  else if c == '*' then keyPart do return .alias (← Scan.anchorName)
  else if c == '&' then keyPart do return .anchor (← Scan.anchorName)
  else if c == '!' then keyPart do return .tag (← Scan.tag)
  else if c == '|' && !l.inFlow then block false
  else if c == '>' && !l.inFlow then block true
  else if c == '\'' then keyPart do return .scalar false (← Scan.quoted false)
  else if c == '"' then keyPart do return .scalar false (← Scan.quoted true)
  else if beginsPlain l.inFlow c (place.peek 1) then plain
  else fail

/-- Reads the next token; `true` at the end of the text. -/
def step : Lex Bool := do
  let l ← get
  if l.place.offset = 0 && l.place.peek 0 == some '\ufeff' then scan (Scan.skip 1)
  if ← scan (toNextToken l.place.rest) then
    unless l.inFlow do allowKey true
  dropStale
  let column := (← get).place.column
  closeBlocks (column < ·)
  match (← get).place.peek 0 with
  | some c =>
    tokenFrom c
    return false
  | none =>
    outermost (return .textEnd)
    return true

/-- Reads tokens to the end of the text, or up to the first fault. -/
def tokensFrom : (bound : Nat) → Lexer → List Token
  | 0, l => l.tokens.reverse
  | bound + 1, l =>
    match step l with
    | .ok (false, next) => tokensFrom bound next
    | .ok (true, next) => next.tokens.reverse
    | .error e => (.fault e :: l.tokens).reverse

end Lexer

/-- The tokens of a text. The last one is its end or a fault. -/
def Token.ofText (s : List Char) : List Token :=
  if s.all isAllowed then Lexer.tokensFrom (s.length + 1) (.start s) else [.fault .malformed]

end DhallSyntax.Yaml
