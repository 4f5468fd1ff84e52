/-!
Insignificant text: spaces, tabs, line endings, line comments and block comments, which nest. All
functions read the text ahead and tell how many characters of it they take.
-/

namespace DhallSyntax.Whitespace

/-- The length of the block comment whose text is given from behind an opening mark; `depth`
further comments are open around it. There is none if the text ends first. -/
def blockLength? (depth : Nat) : List Char → Option Nat
  | '{' :: '-' :: rest => (blockLength? (depth + 1) rest).map (· + 2)
  | '-' :: '}' :: rest =>
    match depth with
    | 0 => some 2
    | depth + 1 => (blockLength? depth rest).map (· + 2)
  | _ :: rest => (blockLength? depth rest).map (· + 1)
  | [] => none

/-- The length of a line comment with its line ending. -/
def lineLength : List Char → Nat
  | [] => 0
  | c :: rest => if c == '\n' then 1 else lineLength rest + 1

/-- What begins a text: no whitespace, a whole chunk of it, or a comment that is never closed. -/
inductive Chunk where
  | none
  | whole (length : Nat)
  | unclosed
deriving DecidableEq, Repr

def chunk : List Char → Chunk
  | ' ' :: _ | '\t' :: _ | '\n' :: _ => .whole 1
  | '\r' :: '\n' :: _ => .whole 2
  | '-' :: '-' :: rest => .whole (lineLength rest + 2)
  | '{' :: '-' :: rest =>
    match blockLength? 0 rest with
    | some n => .whole (n + 2)
    | Option.none => .unclosed
  | _ => .none

/-- Whether a chunk of whitespace begins a text, closed or not. -/
def starts (s : List Char) : Bool :=
  chunk s != .none

/-- The whitespace at the beginning of a text: its length, and whether a comment that is never
closed follows it. -/
structure Extent where
  length : Nat
  unclosed : Bool
deriving DecidableEq, Repr

/-- Takes chunk after chunk, at most as many as `bound` has characters. -/
def extentWithin : (bound : List Char) → List Char → Extent
  | [], _ => ⟨0, false⟩
  | _ :: bound, s =>
    match chunk s with
    | .none => ⟨0, false⟩
    | .unclosed => ⟨0, true⟩
    | .whole n =>
      let later := extentWithin bound (s.drop n)
      ⟨n + later.length, later.unclosed⟩

/-- Every chunk takes a character, so the text itself bounds their number. -/
def extent (s : List Char) : Extent :=
  extentWithin s s

end DhallSyntax.Whitespace
