import DhallSyntax.Grammar.Expression
import DhallSyntax.Parser.State

/-!
How a grammar is run. A part of a grammar ends with a value, without a match, or with a fault that
ends the whole parse; the state is carried along in all three cases. Rules are run with a memo of
their outcomes, and the number of rules inside each other is bounded.
-/

namespace DhallSyntax

/-- How to parse. -/
structure Settings where
  /-- The bound on expressions inside each other, if there is one. -/
  maxDepth : Option Nat
  /-- Whether outcomes of rules are kept. -/
  memoize : Bool
  /-- The bound on rules inside each other. -/
  stack : Nat

namespace Settings

/-- The bound on rules inside each other unless another is asked for. -/
def defaultStack : Nat := 2000

/-- The settings for a bound on nested expressions, which has to be positive. -/
def ofMaxDepth? (maxDepth : Int) (memoize : Bool) : Option Settings :=
  if maxDepth < 1 then none else some ⟨some maxDepth.toNat, memoize, defaultStack⟩

/-- The settings unless others are asked for. -/
def standard : Settings := ⟨some defaultMaxDepth, true, defaultStack⟩

/-- What is said of a bound that is not positive. -/
def refusal (maxDepth : Int) : String :=
  "max_depth must be at least 1, got " ++ Numeral.write maxDepth

end Settings

/-- A fault with the offset where it begins and the rules that were open, outermost first. -/
structure Abort where
  fault : Fault
  offset : Nat
  rules : List Rule
deriving DecidableEq, Repr

/-- How running a part of a grammar ends. -/
inductive Outcome (α : Type) where
  | value (a : α) (s : State)
  | mismatch (s : State)
  | abort (a : Abort) (s : State)

namespace Outcome

variable {α : Type}

/-- The state at the end. -/
def state : Outcome α → State
  | value _ s | mismatch s | abort _ s => s

def mapState (f : State → State) : Outcome α → Outcome α
  | value a s => value a (f s)
  | mismatch s => mismatch (f s)
  | abort a s => abort a (f s)

/-- Tries another part at the place where the first one began, if that one did not match. -/
def orRetry (start : Cursor) (second : State → Outcome α) : Outcome α → Outcome α
  | value a s => value a s
  | mismatch s => second (s.moveTo start)
  | abort a s => abort a s

end Outcome

/-- A way to call the rules of a grammar. -/
abbrev Caller := (rule : Rule) → State → Outcome rule.Result

/-- Ends a parse at the present place. -/
def State.abort {α : Type} (s : State) (fault : Fault) (back : Nat) : Outcome α :=
  .abort ⟨fault, s.cursor.offset - back, s.rules⟩ s

/-- Repeats a step until it yields the final value, at most one time more than `bound` has
characters. -/
def iterateWithin {α σ : Type} (step : σ → State → Outcome (σ ⊕ α)) :
    (bound : List Char) → σ → State → Outcome α
  | bound, state, s =>
    match step state s with
    | .value (.inr a) s => .value a s
    | .value (.inl next) s =>
      match bound with
      | [] => s.abort .stackExhausted 0
      | _ :: bound => iterateWithin step bound next s
    | .mismatch s => .mismatch s
    | .abort a s => .abort a s

/-- Whether one more expression may be opened. -/
def Settings.admits (settings : Settings) (depth : Nat) : Bool :=
  match settings.maxDepth with
  | some bound => depth ≤ bound
  | none => true

/-- Opens one more expression around a part, if the bound admits it. -/
def nestedWithin {α : Type} (settings : Settings) (body : State → Outcome α) (s : State) :
    Outcome α :=
  let inner := s.withDepth (s.depth + 1)
  if settings.admits inner.depth then
    (body inner).mapState fun t => t.withDepth (t.depth - 1)
  else
    (inner.abort (.defect (.tooDeep (settings.maxDepth.getD 0))) 0).mapState fun t =>
      t.withDepth (t.depth - 1)

/-- Runs a part of a grammar. Every round of a repetition takes a character, so the text ahead
bounds their number. -/
def Grammar.run (settings : Settings) (caller : Caller) {α : Type} :
    Grammar α → State → Outcome α
  | .pure a, s => .value a s
  | .bind first next, s =>
    match first.run settings caller s with
    | .value b s => (next b).run settings caller s
    | .mismatch s => .mismatch s
    | .abort a s => .abort a s
  | .look view, s => .value (view s.cursor.rest) s
  | .accept literal, s =>
    if s.cursor.isNext literal then .value true (s.advance literal.length) else .value false s
  | .advance count, s => .value () (s.advance count)
  | .fail expectation, s => .mismatch (s.note expectation)
  | .mismatch, s => .mismatch s
  | .abort fault back, s => s.abort fault back
  | .orElse first second, s =>
    .orRetry s.cursor (second.run settings caller) (first.run settings caller s)
  | .call rule, s => caller rule s
  | .nested body, s => nestedWithin settings (body.run settings caller) s
  | .iterate state step, s =>
    iterateWithin (fun state s => (step state).run settings caller s) s.cursor.rest state s

/-- Keeps the outcome of a rule that began at `start`. What does not match leaves the place where
it was. -/
def recordOutcome (memoize : Bool) (rule : Rule) (start : Cursor) :
    Outcome rule.Result → Outcome rule.Result
  | .value a s =>
    .value a (if memoize then s.store rule start.offset (.matched a s.cursor) else s)
  | .mismatch s =>
    let s := s.moveTo start
    .mismatch (if memoize then s.store rule start.offset .failed else s)
  | .abort a s => .abort a s

/-- Runs a rule afresh. -/
def runRule (settings : Settings) (rule : Rule) (body : State → Outcome rule.Result)
    (s : State) : Outcome rule.Result :=
  recordOutcome settings.memoize rule s.cursor
    ((body (s.enter rule)).mapState State.leave)

/-- Runs a rule, or takes its outcome from the memo. -/
def recallRule (settings : Settings) (rule : Rule) (body : State → Outcome rule.Result)
    (s : State) : Outcome rule.Result :=
  if settings.memoize then
    match s.memo.get? (rule, s.cursor.offset) with
    | some (.matched a stop) => .value a (s.moveTo stop)
    | some .failed => .mismatch s
    | none => runRule settings rule body s
  else runRule settings rule body s

/-- Calls rules that are inside at most `stack` others. The bodies of the rules are given, so that
a grammar can be run with other bodies than its own. -/
def callWithin (bodies : (rule : Rule) → Grammar rule.Result) (settings : Settings) :
    (stack : Nat) → Caller
  | 0, _, s => s.abort .stackExhausted 0
  | stack + 1, rule, s =>
    recallRule settings rule ((bodies rule).run settings (callWithin bodies settings stack)) s

/-- Runs a part of the grammar of expressions. -/
def Grammar.start {α : Type} (settings : Settings) (g : Grammar α) (s : State) : Outcome α :=
  g.run settings (callWithin Rule.body settings settings.stack) s

end DhallSyntax
