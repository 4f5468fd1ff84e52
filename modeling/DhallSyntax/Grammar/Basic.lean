import DhallSyntax.Grammar.Fault
import DhallSyntax.Grammar.Rule
import DhallSyntax.Grammar.Whitespace
import DhallSyntax.Text.CharClass

/-!
Grammars as data. A grammar with ordered choice is a term that says what to look at, how far to
advance, what to try first and which rules to call; how it is run is said elsewhere. No term knows
an absolute offset, so that what it does depends on the text ahead alone.
-/

namespace DhallSyntax

/-- A grammar that yields a value of type `α`. -/
inductive Grammar : Type → Type 1 where
  /-- Yields a value and reads nothing. -/
  | pure {α : Type} (value : α) : Grammar α
  /-- Goes on with what the first part yields. -/
  | bind {α β : Type} (first : Grammar β) (next : β → Grammar α) : Grammar α
  /-- Looks at the text ahead without moving. -/
  | look {α : Type} (view : List Char → α) : Grammar α
  /-- Takes a literal if it is next, and tells whether it was. -/
  | accept (literal : String) : Grammar Bool
  /-- Moves forward, at most to the end. -/
  | advance (count : Nat) : Grammar Unit
  /-- Does not match, and notes what would have been accepted here. -/
  | fail {α : Type} (expectation : String) : Grammar α
  /-- Does not match, and notes nothing. -/
  | mismatch {α : Type} : Grammar α
  /-- Ends the whole parse because of a fault that begins `back` characters before this place. -/
  | abort {α : Type} (fault : Fault) (back : Nat) : Grammar α
  /-- Tries the second part at the same place if the first does not match. -/
  | orElse {α : Type} (first second : Grammar α) : Grammar α
  /-- Matches a named rule. -/
  | call (rule : Rule) : Grammar rule.Result
  /-- Counts as one level of nesting. -/
  | nested {α : Type} (body : Grammar α) : Grammar α
  /-- Repeats a step, from a state to the next state or to the final value. -/
  | iterate {α σ : Type} (state : σ) (step : σ → Grammar (σ ⊕ α)) : Grammar α

namespace Grammar

instance : Monad Grammar where
  pure := .pure
  bind := .bind

/-- The next character, if there is one. -/
def peek : Grammar (Option Char) :=
  look List.head?

/-- What a message says is expected where one of some literals is. -/
def expectation (literals : List String) : String :=
  " or ".intercalate (literals.map quoted)

/-- Takes the first of some literals that is next, if one is. -/
def acceptAny : List String → Grammar (Option String)
  | [] => pure none
  | literal :: rest => do
    if ← accept literal then return some literal else acceptAny rest

/-- Takes the first of some literals that is next. -/
def expectAny (literals : List String) : Grammar String := do
  match ← acceptAny literals with
  | some literal => return literal
  | none => fail (expectation literals)

def expect (literal : String) : Grammar Unit := do
  let _ ← expectAny [literal]

/-- Takes a word that is not the beginning of a longer label. -/
def keyword (word : String) : Grammar Unit := do
  let goesOn ← look fun s => (s.drop word.length).head?.any CharClass.labelContinue
  if goesOn then fail (quoted word)
  unless ← accept word do fail (quoted word)

/-- Takes the longest run of characters of a class. -/
def takeWhile (chars : CharClass) : Grammar (List Char) := do
  let run ← look (List.takeWhile chars)
  advance run.length
  return run

/-- Takes the longest run of characters of a class, which must not be empty. -/
def takeWhile1 (chars : CharClass) (expected : String) : Grammar (List Char) := do
  let run ← takeWhile chars
  if run.isEmpty then fail expected else return run

/-- Takes the next character if it is of a class. -/
def takeIf (chars : CharClass) : Grammar (Option Char) := do
  match ← peek with
  | some c =>
    if chars c then
      advance 1
      return some c
    else
      return none
  | none => return none

/-- The first alternative that matches. -/
def choice {α : Type} : List (Grammar α) → Grammar α
  | [] => mismatch
  | alternative :: rest => orElse alternative (choice rest)

/-- What a part yields, if it matches. -/
def optional? {α : Type} (part : Grammar α) : Grammar (Option α) :=
  orElse (do return some (← part)) (pure none)

/-- Repeats a part as long as it matches, and folds what it yields. -/
def foldMany {α σ : Type} (part : Grammar α) (f : σ → α → σ) (start : σ) : Grammar σ :=
  iterate start fun state => do
    match ← optional? part with
    | some value => return .inl (f state value)
    | none => return .inr state

/-- Repeats a part as long as it matches. -/
def many {α : Type} (part : Grammar α) : Grammar (List α) := do
  return (← foldMany part (fun values value => value :: values) []).reverse

/-- Takes whitespace and comments. -/
def whitespace : Grammar Unit := do
  let extent ← look Whitespace.extent
  advance extent.length
  if extent.unclosed then
    let length ← look List.length
    advance length
    abort (.defect .openComment) length

/-- Takes at least one chunk of whitespace. -/
def whitespace1 : Grammar Unit := do
  if ← look Whitespace.starts then
    whitespace
  else
    fail "whitespace"

end Grammar

end DhallSyntax
