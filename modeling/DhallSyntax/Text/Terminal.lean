import DhallSyntax.Text.Cell
import DhallSyntax.Text.Markup

/-!
Lines on a terminal: control characters are left out, and tabs become spaces.
-/

namespace DhallSyntax.Terminal

/-- The characters that would move the cursor or ring the bell. -/
def isDropped : CharClass := fun c =>
  c == '\x07' || c == '\x08' || c == '\x0b' || c == '\x0c' || c == '\r'

/-- The distance of the columns at which tabs stop. -/
def tabSize : Nat := 8

/-- A line from a column on, with spaces up to the next stop for each tab. -/
def expandTabs : (column : Nat) → List Char → List Char
  | _, [] => []
  | column, c :: rest =>
    if c == '\t' then
      let spaces := tabSize - column % tabSize
      List.replicate spaces ' ' ++ expandTabs (column + spaces) rest
    else c :: expandTabs (column + Cell.width c) rest

/-- The lines of a text as they are printed. -/
def lines (s : String) : List String :=
  ((s.toList.filter fun c => !isDropped c).splitOn '\n').map fun line =>
    String.ofList (expandTabs 0 line)

/-- The lines of a text without tags. -/
def plainLines (s : String) : List String :=
  lines (String.ofList (Markup.withPictures s.toList s.toList))

/-- The lines of marked-up text, unless it closes a style that is not open. -/
def markedLines? (s : String) : Option (List String) :=
  (Markup.shown? s).map lines

/-- The lines of a text with their numbers, which are aligned on the right and stand behind two
spaces. -/
def numbered (s : String) : List String :=
  let rows := s.toList.splitOn '\n'
  let width := (Nat.toDigits 10 rows.length).length
  rows.mapIdx fun i row =>
    let digits := Nat.toDigits 10 (i + 1)
    String.ofList (List.replicate (2 + width - digits.length) ' ' ++ digits ++ ' ' :: row)

end DhallSyntax.Terminal
