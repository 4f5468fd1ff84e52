import DhallSyntax.Grammar.Rule
import Std.Data.DTreeMap

/-!
What a parse keeps: the place it has reached, the rules it is inside of, the furthest place where
an alternative gave up, and the outcomes of the rules already tried.
-/

namespace DhallSyntax

/-- A place in the source with the text ahead. -/
structure Cursor where
  offset : Nat
  rest : List Char
  /-- Whether the place lies behind the end. -/
  isBeyond : Bool
deriving DecidableEq, Repr

namespace Cursor

def start (source : List Char) : Cursor := ⟨0, source, false⟩

/-- The place at an offset, which may lie behind the end. -/
def atOffset (source : List Char) (offset : Nat) : Cursor :=
  ⟨offset, source.drop offset, decide (source.length < offset)⟩

/-- Moves forward, at most to the end. -/
def advance (c : Cursor) (count : Nat) : Cursor :=
  { c with offset := c.offset + (c.rest.take count).length, rest := c.rest.drop count }

/-- Whether a literal is next. Behind the end nothing is, not even the empty text. -/
def isNext (c : Cursor) (literal : String) : Bool :=
  !c.isBeyond && literal.toList.isPrefixOf c.rest

end Cursor

/-- The beginning that two lists have in common. -/
def commonPrefix {α : Type} [DecidableEq α] : List α → List α → List α
  | a :: as, b :: bs => if a = b then a :: commonPrefix as bs else []
  | _, _ => []

/-- The furthest place where an alternative gave up: what was expected there, without repetitions
and in the order of the attempts, and the rules that all of them were inside of, outermost first. -/
structure Furthest where
  offset : Nat
  expected : List String
  rules : List Rule
deriving DecidableEq, Repr

namespace Furthest

/-- A failed attempt at a place nearer than the furthest changes nothing, one at a further place
makes that the furthest. -/
def note (furthest : Option Furthest) (offset : Nat) (expectation : String)
    (rules : List Rule) : Option Furthest :=
  match furthest with
  | none => some ⟨offset, [expectation], rules⟩
  | some f =>
    if f.offset < offset then some ⟨offset, [expectation], rules⟩
    else if offset = f.offset then
      some
        { f with
          expected :=
            if f.expected.contains expectation then f.expected else f.expected ++ [expectation]
          rules := commonPrefix f.rules rules }
    else some f

end Furthest

/-- The outcome of a rule at some place: what it yields and where it ends, or that it does not
match. -/
inductive MemoEntry (rule : Rule) where
  | matched (value : rule.Result) (stop : Cursor)
  | failed

/-- The order of memo keys: by offset, then by rule. -/
def compareKeys (a b : Rule × Nat) : Ordering :=
  (compare a.2 b.2).then (compare a.1.ctorIdx b.1.ctorIdx)

instance : Std.TransCmp compareKeys :=
  inferInstanceAs
    (Std.TransCmp (compareLex (compareOn Prod.snd) (compareOn fun k : Rule × Nat => k.1.ctorIdx)))

instance : Std.LawfulEqCmp compareKeys where
  eq_of_compare {a b} h := by
    obtain ⟨r, m⟩ := a
    obtain ⟨q, n⟩ := b
    simp only [compareKeys, Ordering.then_eq_eq, Nat.compare_eq_eq] at h
    obtain ⟨rfl, hr⟩ := h
    have hq := congrArg Rule.ofNat hr
    simp only [Rule.ofNat_ctorIdx] at hq
    rw [hq]

/-- The outcomes of rules by rule and offset. -/
abbrev Memo := Std.DTreeMap (Rule × Nat) (fun key => MemoEntry key.1) compareKeys

structure State where
  cursor : Cursor
  /-- How many expressions are open. -/
  depth : Nat
  /-- The rules that are open, innermost first. -/
  active : List Rule
  furthest : Option Furthest
  memo : Memo

namespace State

/-- The state before anything is read. -/
def initial (source : List Char) : State :=
  { cursor := .start source, depth := 0, active := [], furthest := none, memo := ∅ }

/-- The open rules, outermost first. -/
def rules (s : State) : List Rule := s.active.reverse

def advance (s : State) (count : Nat) : State :=
  { s with cursor := s.cursor.advance count }

/-- Notes a failed attempt at the present place. -/
def note (s : State) (expectation : String) : State :=
  { s with furthest := Furthest.note s.furthest s.cursor.offset expectation s.rules }

def enter (s : State) (rule : Rule) : State :=
  { s with active := rule :: s.active }

def leave (s : State) : State :=
  { s with active := s.active.tail }

def moveTo (s : State) (cursor : Cursor) : State :=
  { s with cursor := cursor }

def withDepth (s : State) (depth : Nat) : State :=
  { s with depth := depth }

def store (s : State) (rule : Rule) (offset : Nat) (entry : MemoEntry rule) : State :=
  { s with memo := s.memo.insert (rule, offset) entry }

end State

end DhallSyntax
