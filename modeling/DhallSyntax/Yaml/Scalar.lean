import DhallSyntax.Number.Numeral
import DhallSyntax.Yaml.Cursor

/-!
The texts of scalars: plain, between quotes, or in a block of indented lines. A single line break
inside a plain or quoted scalar stands for a space, and of several the first is dropped.
-/

namespace DhallSyntax.Yaml.Scan

/-- What a line break stands for with the empty lines behind it. -/
def foldBreaks (first : Char) (more : List Char) : List Char :=
  if first != '\n' then first :: more
  else if more.isEmpty then [' ']
  else more

/-! Plain scalars -/

/-- The longest part of a line that is plain: up to a blank, a colon in front of a blank, or the
marks of flow collections inside these. -/
def plainPart (inFlow : Bool) : List Char → List Char
  | [] => []
  | c :: rest =>
    let closes (d : Char) : Bool :=
      isBlankOrBreak d || (inFlow && ",[]\x7b\x7d".toList.contains d)
    if isBlankOrBreak c || (c == ':' && rest.head?.all closes) ||
        (inFlow && ",?[]\x7b\x7d".toList.contains c) then []
    else c :: plainPart inFlow rest

/-- Empty lines and the spaces in front of the next one. There is no next one if a mark between
documents comes. -/
def emptyLines : (bound : List Char) → Scan (Option (List Char))
  | [] => return some []
  | _ :: bound => do
    skipSpaces
    match ← lineBreak? with
    | none => return some []
    | some c =>
      if (← get).isAtAnyMark then return none
      return (← emptyLines bound).map (c :: ·)

/-- What stands between two parts of a plain scalar, and whether a line ended there. -/
def plainGap : Scan (List Char × Bool) := do
  let spaces ← takeWhile (· == ' ')
  match ← lineBreak? with
  | none => return (spaces, false)
  | some c =>
    let place ← get
    if place.isAtAnyMark then return ([], true)
    match ← emptyLines place.rest with
    | some more => return (foldBreaks c more, true)
    | none => return ([], true)

/-- A plain scalar from one part on, with the gap before it. Its further lines begin at column
`indent` or behind it. -/
def plainRest (inFlow : Bool) (indent : Nat) :
    (bound : List Char) → (gap : List Char) → (broken : Bool) → Scan (List Char × Bool)
  | [], _, broken => return ([], broken)
  | _ :: bound, gap, broken => do
    let part := plainPart inFlow (← get).rest
    if part.isEmpty || part.head? == some '#' then return ([], broken)
    skip part.length
    let (next, broken) ← plainGap
    if next.isEmpty || (!inFlow && (← get).column < indent) then return (gap ++ part, broken)
    let (more, broken) ← plainRest inFlow indent bound next broken
    return (gap ++ part ++ more, broken)

/-- A plain scalar, and whether a line ended behind it. -/
def plain (inFlow : Bool) (indent : Nat) : Scan (String × Bool) := do
  let (text, broken) ← plainRest inFlow indent (← get).rest [] false
  return (String.ofList text, broken)

/-! Quoted scalars -/

def isSpaceOrTab : CharClass := fun c => c == ' ' || c == '\t'

/-- Empty lines inside quotes, and the blanks in front of the next one. -/
def quotedLines : (bound : List Char) → Scan (List Char)
  | [] => return []
  | _ :: bound => do
    if (← get).isAtAnyMark then fail
    let _ ← takeWhile isSpaceOrTab
    match ← lineBreak? with
    | some c => return c :: (← quotedLines bound)
    | none => return []

/-- Blanks inside quotes, or what a line break there stands for. -/
def quotedGap : Scan (List Char) := do
  let blanks ← takeWhile isSpaceOrTab
  if (← peek).isNone then fail
  match ← lineBreak? with
  | some c => return foldBreaks c (← quotedLines (← get).rest)
  | none => return blanks

/-- What the letter behind a backslash stands for. -/
def letterMeaning? (letter : Char) : Option Char :=
  (escapeLetters.find? fun entry => entry.2 == letter).map Prod.fst <|>
    [('\t', '\t'), (' ', ' '), ('/', '/')].lookup letter

/-- How many digits follow the letter of a code. -/
def codeLength? (letter : Char) : Option Nat := [('x', 2), ('u', 4), ('U', 8)].lookup letter

/-- The character of a code. Half of a pair becomes the replacement character. -/
def charOfCode (code : Nat) : Scan Char :=
  if 0x10ffff < code then throw (.badCode code)
  else if 0xd800 ≤ code ∧ code ≤ 0xdfff then return '\ufffd'
  else return Char.ofNat code

/-- An escape from its backslash on. An escaped line break stands for the empty lines behind it
alone. -/
def escape : Scan (List Char) := do
  skip 1
  match ← peek with
  | none => fail
  | some letter =>
    match letterMeaning? letter, codeLength? letter with
    | some c, _ => skip 1; return [c]
    | none, some length =>
      skip 1
      let digits := (← get).rest.take length
      unless digits.length = length && digits.all CharClass.hexDigit do fail
      let c ← charOfCode (Numeral.positional 16 digits)
      skip length
      return [c]
    | none, none =>
      if (← lineBreak?).isNone then fail
      quotedLines (← get).rest

/-- The characters that end a run inside quotes. -/
def endsQuotedRun : CharClass := fun c =>
  c == '\'' || c == '"' || c == '\\' || isBlankOrBreak c

/-- A quote or backslash inside quotes and what it stands for, unless the scalar ends or a blank
follows. -/
def quotedMark (isDouble : Bool) : Scan (Option (List Char)) := do
  match ← peek, isDouble with
  | some '\\', true => return some (← escape)
  | some '\'', true => skip 1; return some ['\'']
  | some '\'', false =>
    if (← peek 1) == some '\'' then
      skip 2
      return some ['\'']
    else return none
  | some c, false =>
    if c == '"' || c == '\\' then
      skip 1
      return some [c]
    else return none
  | _, _ => return none

/-- What stands between blanks inside quotes. -/
def quotedPart (isDouble : Bool) : (bound : List Char) → Scan (List Char)
  | [] => return []
  | _ :: bound => do
    let run ← takeWhile fun c => !endsQuotedRun c
    match ← quotedMark isDouble with
    | some meaning => return run ++ meaning ++ (← quotedPart isDouble bound)
    | none => return run

/-- The rest of a quoted scalar, its closing quote included. -/
def quotedRest (isDouble : Bool) : (bound : List Char) → Scan (List Char)
  | [] => fail
  | _ :: bound => do
    let part ← quotedPart isDouble (← get).rest
    if (← peek) == some (if isDouble then '"' else '\'') then
      skip 1
      return part
    let gap ← quotedGap
    return part ++ gap ++ (← quotedRest isDouble bound)

def quoted (isDouble : Bool) : Scan String := do
  skip 1
  return String.ofList (← quotedRest isDouble (← get).rest)

/-! Block scalars -/

/-- What happens to the line breaks at the end of a block. -/
inductive Chomping where
  | strip
  /-- One is kept. -/
  | clip
  | keep
deriving DecidableEq, Repr

def chompingOf : Option Char → Option Chomping
  | some '+' => some .keep
  | some '-' => some .strip
  | _ => none

def chomping? : Scan (Option Chomping) := do
  let found := chompingOf (← peek)
  if found.isSome then skip 1
  return found

/-- The digit that says how far a block is indented. -/
def indentation? : Scan (Option Nat) := do
  match ← peek with
  | some c =>
    if CharClass.digit c then
      if c == '0' then fail
      skip 1
      return some (Numeral.positional 10 [c])
    else return none
  | none => return none

/-- The two marks behind the sign of a block, in either order, each at most once. -/
def blockHeader : Scan (Chomping × Option Nat) := do
  let first ← chomping?
  let indentation ← indentation?
  let second ← if first.isNone && indentation.isSome then chomping? else pure none
  requireEnd fun c => c == ' ' || isAnyBreak c
  return ((first <|> second).getD .clip, indentation)

/-- Empty lines at the beginning of a block, and the greatest indentation among them and the first
line. -/
def leadingLines : (bound : List Char) → (widest : Nat) → Scan (List Char × Nat)
  | [], widest => return ([], widest)
  | _ :: bound, widest => do
    skipSpaces
    let widest := max widest (← get).column
    match ← lineBreak? with
    | some c =>
      let (more, widest) ← leadingLines bound widest
      return (c :: more, widest)
    | none => return ([], widest)

/-- Empty lines in a block, and the indentation of the next line. -/
def blockBreaks (indent : Nat) : (bound : List Char) → Scan (List Char)
  | [] => return []
  | _ :: bound => do
    let place ← get
    skip ((place.rest.take (indent - place.column)).takeWhile (· == ' ')).length
    match ← lineBreak? with
    | some c => return c :: (← blockBreaks indent bound)
    | none => return []

/-- Whether a line of a block begins here. -/
def isAtBlockLine (indent : Nat) : Scan Bool := do
  let place ← get
  return place.column = indent && !place.rest.isEmpty

/-- The text of a block before its end. -/
structure BlockText where
  text : List Char
  /-- The break that ends the last line. -/
  lastBreak : List Char
  /-- The empty lines at the end. -/
  trailing : List Char

/-- The lines of a block from one line on, with the empty lines before it. In a folded block the
break between two lines that do not begin with a blank is a space, if no empty line is between
them, and is dropped otherwise. -/
def blockLines (isFolded : Bool) (indent : Nat) :
    (bound : List Char) → (before : List Char) → Scan BlockText
  | [], before => return ⟨[], [], before⟩
  | _ :: bound, before => do
    let line ← takeWhile fun c => !isAnyBreak c
    let ending := (← lineBreak?).toList
    let after ← blockBreaks indent (← get).rest
    if ← isAtBlockLine indent then
      let beginsWithBlank (c : Option Char) : Bool := c.any isSpaceOrTab
      let folds := isFolded && ending == ['\n'] && !beginsWithBlank line.head? &&
        !beginsWithBlank (← peek)
      let between :=
        if folds then if after.isEmpty then [' '] else []
        else ending
      let block ← blockLines isFolded indent bound after
      return { block with text := before ++ line ++ between ++ block.text }
    else return ⟨before ++ line, ending, after⟩

/-- A block scalar from its sign on, indented by at least `least`. -/
def block (isFolded : Bool) (least : Nat) : Scan String := do
  skip 1
  let (chomping, indentation) ← blockHeader
  endLine
  let bound := (← get).rest
  let (before, indent) ←
    match indentation with
    | none => do
      let (before, widest) ← leadingLines bound 0
      pure (before, max least widest)
    | some n => do
      let indent := least + n - 1
      pure (← blockBreaks indent bound, indent)
  let found ←
    if ← isAtBlockLine indent then blockLines isFolded indent bound before
    else pure ⟨[], [], before⟩
  return String.ofList <|
    match chomping with
    | .strip => found.text
    | .clip => found.text ++ found.lastBreak
    | .keep => found.text ++ found.lastBreak ++ found.trailing

end DhallSyntax.Yaml.Scan
