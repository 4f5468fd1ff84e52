/-!
Places in a source text. A place is an offset counted in characters; its line is searched for in a
table of the offsets where lines begin, and its column counts from there. An excerpt shows the line
with a caret under the place, and finds the line in the text itself.
-/

namespace DhallSyntax

/-- An offset from 0 with its line and column, both from 1. -/
structure Location where
  offset : Nat
  line : Nat
  column : Nat
deriving DecidableEq, Repr

namespace Location

/-- One more character: the offset behind it, and the lines that begin up to there. -/
def passChar : Nat × Array Nat → Char → Nat × Array Nat
  | (offset, starts), c =>
    (offset + 1, if c = '\n' then starts.push (offset + 1) else starts)

/-- The offsets where lines begin, in order: the beginning and the places behind line feeds. -/
def lineStarts (source : List Char) : Array Nat :=
  (source.foldl passChar (0, #[0])).2

/-- The number of entries of an ascending table that are not behind `offset`. Those below `low` are
not, and those from `high` on are: what is between is halved. -/
def countUpTo (table : Array Nat) (offset low high : Nat) : Nat :=
  if low < high then
    let middle := (low + high) / 2
    if offset < table.getD middle 0 then countUpTo table offset low middle
    else countUpTo table offset (middle + 1) high
  else low
termination_by high - low

/-- The place of an offset. An offset behind the end counts as further columns of the last line. -/
def of (source : List Char) (offset : Nat) : Location :=
  let starts := lineStarts source
  let line := countUpTo starts offset 0 starts.size
  { offset, line, column := offset - starts.getD (line - 1) 0 + 1 }

/-- Line and column, joined by a colon. -/
def text (l : Location) : String :=
  toString l.line ++ ":" ++ toString l.column

/-- The text between the last line feed before `offset` and `offset` itself. -/
def lineHead (source : List Char) (offset : Nat) : List Char :=
  ((source.take offset).reverse.takeWhile (· != '\n')).reverse

/-- The text from `offset` to the next line feed. -/
def lineTail (source : List Char) (offset : Nat) : List Char :=
  (source.drop offset).takeWhile (· != '\n')

end Location

/-- The line of the source that holds `offset`, without the carriage returns at its end, and a
caret under the character. An empty source has no excerpt. -/
def excerpt (source : List Char) (offset : Nat) : String :=
  if source.isEmpty then ""
  else
    let head := Location.lineHead source offset
    let line := head ++ Location.lineTail source offset
    let shown := (line.reverse.dropWhile (· == '\r')).reverse
    let start := (source.take offset).length - head.length
    String.ofList (shown ++ '\n' :: List.replicate (offset - start) ' ' ++ ['^'])

end DhallSyntax
