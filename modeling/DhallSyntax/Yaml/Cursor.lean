import DhallSyntax.Yaml.Chars

/-!
A place in a YAML text and the reading of single characters, blanks and line breaks there. Columns
count characters behind the last line break.
-/

namespace DhallSyntax.Yaml

/-- Why a text is not a document. -/
inductive Error where
  | malformed
  /-- A scalar of a type for numbers is none, or has more digits than are converted. -/
  | badNumber
  /-- A date or time of day does not exist. -/
  | badTime
  /-- An escape gives a code that no character has. -/
  | badCode (code : Nat)
  /-- A scalar tagged as a truth value is none. -/
  | badTruth (text : String)
  /-- A place of a number in places of sixty is worth more than any double. -/
  | overflow
  | tooDeep
deriving DecidableEq, Repr

/-- What is left of a text, and where that begins. -/
structure Cursor where
  rest : List Char
  offset : Nat
  line : Nat
  column : Nat
deriving Repr

namespace Cursor

def start (s : List Char) : Cursor := ⟨s, 0, 0, 0⟩

/-- Whether a line ends with a character in front of a rest: a carriage return and a line feed
behind it end one line. -/
def endsLine (c : Char) (rest : List Char) : Bool :=
  isBreak c || (c == '\r' && rest.head? != some '\n')

/-- The place behind the next character. A byte order mark takes no column. -/
def next (place : Cursor) : Cursor :=
  match place.rest with
  | [] => place
  | c :: rest =>
    if endsLine c rest then ⟨rest, place.offset + 1, place.line + 1, 0⟩
    else
      ⟨rest, place.offset + 1, place.line,
        if c == '\ufeff' then place.column else place.column + 1⟩

/-- The place a number of characters further on. -/
def forward : Nat → Cursor → Cursor
  | 0, place => place
  | n + 1, place => forward n place.next

/-- The character at a distance, if the text goes that far. -/
def peek (place : Cursor) (distance : Nat) : Option Char := place.rest[distance]?

/-- Whether the text ends here or goes on with a character of a class. -/
def endsAt (place : Cursor) (distance : Nat) (chars : CharClass) : Bool :=
  (place.peek distance).all chars

/-- Whether a mark between documents begins here. -/
def isAtMark (place : Cursor) (mark : String) : Bool :=
  mark.toList.isPrefixOf place.rest && place.endsAt 3 isBlankOrBreak

/-- Whether any of the two marks between documents begins here. -/
def isAtAnyMark (place : Cursor) : Bool := place.isAtMark "---" || place.isAtMark "..."

end Cursor

/-- A step that reads from a text. -/
abbrev Scan := StateT Cursor (Except Error)

namespace Scan

def fail {α : Type} : Scan α := throw .malformed

/-- The next character, which stays. -/
def peek (distance : Nat := 0) : Scan (Option Char) := do return (← get).peek distance

def skip (count : Nat) : Scan Unit := modify (Cursor.forward count)

/-- Reads the longest run of characters of a class. -/
def takeWhile (chars : CharClass) : Scan (List Char) := do
  let run := (← get).rest.takeWhile chars
  skip run.length
  return run

def skipSpaces : Scan Unit := do
  let _ ← takeWhile (· == ' ')

/-- Skips what follows a number sign on its line. -/
def skipComment : Scan Unit := do
  if (← peek) == some '#' then
    let _ ← takeWhile fun c => !isAnyBreak c

/-- Reads a line break. The usual ones all become a line feed. -/
def lineBreak? : Scan (Option Char) := do
  match (← get).rest with
  | '\r' :: '\n' :: _ => skip 2; return some '\n'
  | c :: _ =>
    if c == '\u2028' || c == '\u2029' then skip 1; return some c
    else if isAnyBreak c then skip 1; return some '\n'
    else return none
  | [] => return none

/-- The text has to end here or to go on with a character of a class. -/
def requireEnd (chars : CharClass) : Scan Unit := do
  unless (← get).endsAt 0 chars do fail

/-- Ends a line that may only hold spaces and a comment. -/
def endLine : Scan Unit := do
  skipSpaces
  skipComment
  requireEnd isAnyBreak
  let _ ← lineBreak?

end Scan

end DhallSyntax.Yaml
