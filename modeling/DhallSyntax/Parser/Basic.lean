import DhallSyntax.Parser.Error
import DhallSyntax.Parser.Run

/-!
Parsing whole sources and the expressions at their beginning. A session keeps the place it has
reached between calls; each parse begins anew.
-/

namespace DhallSyntax

/-- The character at an offset, as messages show it. -/
def describeAt (source : List Char) (offset : Nat) : String :=
  match (source.drop offset).head? with
  | some c => quoted (String.singleton c)
  | none => "end of input"

/-- The innermost of some rules that has a description. -/
def describeRules (rules : List Rule) : String :=
  (rules.reverse.findSome? Rule.description?).getD "an expression"

namespace ParseError

/-- No alternative matched. -/
def ofFurthest (source : List Char) (furthest : Option Furthest) : ParseError :=
  let f := furthest.getD ⟨0, [], []⟩
  .source
    { kind := .mismatch
      message := "unexpected " ++ describeAt source f.offset ++ " while parsing " ++
        describeRules f.rules
      location := .of source f.offset
      expected := f.expected
      rules := f.rules
      source := source }

def ofAbort (source : List Char) (a : Abort) : ParseError :=
  match a.fault with
  | .stackExhausted => .stackExhausted
  | .numberRange => .numberRange
  | .defect d =>
    .source
      { kind := d.kind
        message := d.message
        location := .of source a.offset
        expected := d.expected
        rules := a.rules
        source := source }

/-- An expression ends at `offset` before the source does. If a longer one got further before it
failed, the error is there. -/
def ofTrailing (source : List Char) (offset : Nat) (furthest : Option Furthest) : ParseError :=
  let after : SyntaxError :=
    { kind := .trailing
      message := "unexpected " ++ describeAt source offset ++ " after a complete expression"
      location := .of source offset
      expected := []
      rules := []
      source := source }
  .source <|
    match furthest with
    | none => after
    | some f =>
      if f.offset < offset then after
      else if f.offset = offset then { after with expected := f.expected, rules := f.rules }
      else
        { after with
          message := "unexpected " ++ describeAt source f.offset ++ " while parsing " ++
            describeRules f.rules
          location := .of source f.offset
          expected := f.expected
          rules := f.rules }

end ParseError

/-- The outcome of a parse, and the state it leaves. -/
structure Parsed (α : Type) where
  result : Except ParseError α
  state : State

/-- Runs a part of the grammar from the beginning of a source. -/
def runFrom {α : Type} (settings : Settings) (source : List Char) (g : Grammar α) : Parsed α :=
  match g.start settings (.initial source) with
  | .value a s => ⟨.ok a, s⟩
  | .mismatch s => ⟨.error (.ofFurthest source s.furthest), s⟩
  | .abort a s => ⟨.error (.ofAbort source a), s⟩

/-- An expression behind optional whitespace. -/
def Grammar.leadingExpression : Grammar Expr := do
  whitespace
  call .expression

/-- An expression and how many characters it takes, the whitespace in front of it included. -/
structure Prefix where
  expression : Expr
  consumed : Nat

def parsePrefixWith (settings : Settings) (source : List Char) : Parsed Prefix :=
  let p := runFrom settings source Grammar.leadingExpression
  ⟨p.result.map fun e => ⟨e, p.state.cursor.offset⟩, p.state⟩

/-- Parses a whole source. -/
def parseWith (settings : Settings) (source : List Char) : Parsed Expr :=
  let p := runFrom settings source Grammar.completeExpression
  match p.result with
  | .error e => ⟨.error e, p.state⟩
  | .ok e =>
    if p.state.cursor.rest.isEmpty then ⟨.ok e, p.state⟩
    else ⟨.error (.ofTrailing source p.state.cursor.offset p.state.furthest), p.state⟩

def parse (settings : Settings) (source : String) : Except ParseError Expr :=
  (parseWith settings source.toList).result

def parsePrefix (settings : Settings) (source : String) : Except ParseError Prefix :=
  (parsePrefixWith settings source.toList).result

/-- A source with the settings for parsing it and the state the last call has left. -/
structure Session where
  settings : Settings
  source : List Char
  state : State

namespace Session

def start (settings : Settings) (source : String) : Session :=
  ⟨settings, source.toList, .initial source.toList⟩

/-- Parses the whole source, from the beginning. -/
def parse (session : Session) : Except ParseError Expr × Session :=
  let p := parseWith session.settings session.source
  (p.result, { session with state := p.state })

/-- Parses an expression at the beginning of the source. -/
def parsePrefix (session : Session) : Except ParseError Prefix × Session :=
  let p := parsePrefixWith session.settings session.source
  (p.result, { session with state := p.state })

def position (session : Session) : Nat := session.state.cursor.offset

/-- The offset at a distance from the present place. One in front of the source counts from its
end. -/
def offsetAt (session : Session) (distance : Int) : Nat :=
  let offset := session.position + distance
  if offset < 0 then (session.source.length + offset).toNat else offset.toNat

/-- The character at a distance, or nothing behind the end. -/
def peek (session : Session) (distance : Int) : String :=
  String.ofList ((session.source.drop (session.offsetAt distance)).take 1)

/-- Moves on by a number of characters and yields them, or those that there are. -/
def advance (session : Session) (count : Int) : String × Session :=
  let count := session.offsetAt count - session.position
  let text := session.state.cursor.rest.take count
  (String.ofList text, { session with state := session.state.advance count })

/-- Runs a part of the grammar at the present place, without beginning anew. -/
def run {α : Type} (session : Session) (g : Grammar α) : Outcome α × Session :=
  let outcome := g.start session.settings session.state
  (outcome, { session with state := outcome.state })

/-- Goes to an offset. -/
def moveTo (session : Session) (offset : Nat) : Session :=
  { session with state := session.state.moveTo (.atOffset session.source offset) }

def atEnd (session : Session) : Bool := session.state.cursor.rest.isEmpty

end Session

end DhallSyntax
