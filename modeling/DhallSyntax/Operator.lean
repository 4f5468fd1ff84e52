/-!
The binary operators: their names, their symbols, how tightly they bind, and every way to spell
them in a source text.
-/

namespace DhallSyntax

/-- The binary operators, from the loosest to the tightest. All of them associate to the left. -/
inductive Operator where
  | importAlternative
  | boolOr
  | naturalPlus
  | textAppend
  | listAppend
  | boolAnd
  | combine
  | prefer
  | combineTypes
  | naturalTimes
  | boolEqual
  | boolNotEqual
deriving DecidableEq, Repr

namespace Operator

/-- All operators in the order in which they bind. -/
def all : List Operator :=
  [importAlternative, boolOr, naturalPlus, textAppend, listAppend, boolAnd, combine, prefer,
   combineTypes, naturalTimes, boolEqual, boolNotEqual]

/-- The name under which documents refer to an operator. -/
def name : Operator → String
  | importAlternative => "IMPORT_ALT"
  | boolOr => "BOOL_OR"
  | naturalPlus => "NATURAL_PLUS"
  | textAppend => "TEXT_APPEND"
  | listAppend => "LIST_APPEND"
  | boolAnd => "BOOL_AND"
  | combine => "COMBINE"
  | prefer => "PREFER"
  | combineTypes => "COMBINE_TYPES"
  | naturalTimes => "NATURAL_TIMES"
  | boolEqual => "BOOL_EQ"
  | boolNotEqual => "BOOL_NE"

def ofName? (s : String) : Option Operator :=
  all.find? fun op => op.name == s

/-- The canonical spelling. -/
def symbol : Operator → String
  | importAlternative => "?"
  | boolOr => "||"
  | naturalPlus => "+"
  | textAppend => "++"
  | listAppend => "#"
  | boolAnd => "&&"
  | combine => "∧"
  | prefer => "⫽"
  | combineTypes => "⩓"
  | naturalTimes => "*"
  | boolEqual => "=="
  | boolNotEqual => "!="

/-- How tightly an operator binds; a larger number binds tighter. -/
def precedence : Operator → Nat
  | importAlternative => 0
  | boolOr => 1
  | naturalPlus => 2
  | textAppend => 3
  | listAppend => 4
  | boolAnd => 5
  | combine => 6
  | prefer => 7
  | combineTypes => 8
  | naturalTimes => 9
  | boolEqual => 10
  | boolNotEqual => 11

/-- One way to write an operator. Some spellings count only with whitespace behind them, as `+1`
and `?x` are no operators. -/
structure Spelling where
  text : String
  operator : Operator
  needsWhitespace : Bool
deriving DecidableEq, Repr

/-- The spellings in the order in which they are tried, longer ones before their own beginnings. -/
def spellings : List Spelling :=
  [⟨"//\\\\", combineTypes, false⟩,
   ⟨"//", prefer, false⟩,
   ⟨"/\\", combine, false⟩,
   ⟨"++", textAppend, false⟩,
   ⟨"||", boolOr, false⟩,
   ⟨"&&", boolAnd, false⟩,
   ⟨"==", boolEqual, false⟩,
   ⟨"!=", boolNotEqual, false⟩,
   ⟨"⩓", combineTypes, false⟩,
   ⟨"⫽", prefer, false⟩,
   ⟨"∧", combine, false⟩,
   ⟨"+", naturalPlus, true⟩,
   ⟨"?", importAlternative, true⟩,
   ⟨"#", listAppend, false⟩,
   ⟨"*", naturalTimes, false⟩]

end Operator

end DhallSyntax
