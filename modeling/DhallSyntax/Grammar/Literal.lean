import DhallSyntax.Grammar.Basic
import DhallSyntax.Vocabulary

/-!
The leaves of expressions: numbers, labels, identifiers and text. Numbers keep every digit. Text
may hold interpolated expressions, which lead back into the whole grammar.
-/

namespace DhallSyntax.Grammar

open CharClass

/-! Numbers -/

/-- The doubles that are written as words. -/
def specialDoubles : List (String × Decimal) :=
  [("-Infinity", .infinity true), ("Infinity", .infinity false), ("NaN", .nan false false 0)]

def digits : Grammar (List Char) :=
  takeWhile1 digit "a digit"

/-- An optional sign; `true` stands for a minus. -/
def sign : Grammar Bool := do
  let c ← takeIf fun c => c == '+' || c == '-'
  return c == some '-'

/-- `e` or `E`, a sign and digits. -/
def exponent : Grammar Int := do
  let _ ← expectAny ["e", "E"]
  let negative ← sign
  return Numeral.applySign negative (Numeral.positional 10 (← digits))

/-- The decimal with the given digits before and behind the point. -/
def decimal (negative : Bool) (whole fraction : List Char) (exponent : Int) : Grammar Decimal :=
  let coefficient := Numeral.positional 10 (whole ++ fraction)
  match Decimal.ofParts? negative coefficient (exponent - fraction.length) with
  | some value => pure value
  | none => abort .numberRange 0

/-- A double has a point or an exponent, or is one of the words for doubles that have no digits. -/
def doubleLiteral : Grammar Decimal := do
  match ← look fun s => specialDoubles.find? fun entry => entry.1.toList.isPrefixOf s with
  | some (word, value) =>
    keyword word
    return value
  | none =>
    let negative ← sign
    let whole ← digits
    if ← accept "." then
      let fraction ← digits
      decimal negative whole fraction ((← optional? exponent).getD 0)
    else
      decimal negative whole [] (← exponent)

def naturalLiteral : Grammar Nat := do
  return Numeral.positional 10 (← digits)

def integerLiteral : Grammar Int := do
  let sign ← expectAny ["+", "-"]
  return Numeral.applySign (sign == "-") (Numeral.positional 10 (← digits))

/-! Labels and identifiers -/

/-- The longest run of characters that may make up an unquoted label, keywords included. -/
def bareLabel : Grammar String := do
  match ← peek with
  | some c =>
    if labelStart c then
      return String.ofList (← takeWhile labelContinue)
    else fail "a label"
  | none => fail "a label"

def quotedLabel : Grammar String := do
  expect "`"
  let text ← takeWhile CharClass.quotedLabel
  expect "`"
  return String.ofList text

/-- A bare label that is no word of a set. What is expected is noted where the label begins. -/
def bareLabelExcept (excluded : String → Bool) (expected : String) : Grammar String := do
  let word ← look fun s => String.ofList (s.takeWhile labelContinue)
  let startsLabel ← look fun s => s.head?.any labelStart
  if startsLabel && excluded word then fail expected else bareLabel

def labelExcept (excluded : String → Bool) (expected : String) : Grammar String := do
  if (← peek) == some '\x60' then quotedLabel else bareLabelExcept excluded expected

/-- Any label: quoted, or unquoted and no keyword. -/
def label : Grammar String :=
  labelExcept Vocabulary.isKeyword "a label"

/-- A label that may name a variable: quoted, or neither a keyword nor a builtin. -/
def nonreservedLabel : Grammar String :=
  labelExcept Vocabulary.isReserved "a variable name"

def builtin : Grammar Expr := do
  let word ← look fun s => String.ofList (s.takeWhile labelContinue)
  let startsLabel ← look fun s => s.head?.any labelStart
  if startsLabel && !Vocabulary.isBuiltin word then fail "an identifier"
  else return .builtin (← bareLabel)

/-- The index behind a variable name. -/
def variableIndex : Grammar Nat := do
  whitespace
  expect "@"
  whitespace
  return Numeral.positional 10 (← takeWhile1 digit "a variable index")

/-- A variable with its index, or a builtin. -/
def identifier : Grammar Expr := do
  match ← optional? (call .nonreservedLabel) with
  | some name => return .variable name ((← optional? variableIndex).getD 0)
  | none => builtin

/-! Text -/

/-- A text literal under construction, both lists in reverse. -/
structure TextDraft where
  chunks : List (String × Expr)
  buffer : List Char

namespace TextDraft

def empty : TextDraft := ⟨[], []⟩

def add (draft : TextDraft) (text : List Char) : TextDraft :=
  { draft with buffer := text.reverse ++ draft.buffer }

def interpolate (draft : TextDraft) (value : Expr) : TextDraft :=
  ⟨(String.ofList draft.buffer.reverse, value) :: draft.chunks, []⟩

def build (draft : TextDraft) : Expr :=
  .text draft.chunks.reverse (String.ofList draft.buffer.reverse)

end TextDraft

/-- An expression with whitespace around it. -/
def completeExpression : Grammar Expr := do
  whitespace
  let value ← call .expression
  whitespace
  return value

/-- The rest of an interpolation, from behind its opening brace. -/
def interpolation (draft : TextDraft) : Grammar TextDraft := do
  let value ← completeExpression
  expect "\x7d"
  return draft.interpolate value

/-- The character with a code point. The defect is noted `length` characters back, where the
escape begins. -/
def scalar (code length : Nat) : Grammar Char :=
  if 0x10ffff < code || (0xd800 ≤ code && code ≤ 0xdfff) then
    abort (.defect (.notScalar code)) length
  else
    return Char.ofNat code

/-- The rest of a unicode escape, from behind the `u`: digits in braces, or four digits. -/
def unicodeEscape : Grammar Char := do
  if ← accept "\x7b" then
    let run ← takeWhile hexDigit
    if run.isEmpty then
      abort (.defect .emptyEscape) 3
    else if ← accept "\x7d" then
      if 6 < (run.dropWhile (· == '0')).length then
        abort (.defect .longEscape) (run.length + 4)
      else
        scalar (Numeral.positional 16 run) (run.length + 4)
    else
      abort (.defect .openEscape) (run.length + 3)
  else
    let run ← look fun s => s.take 4
    if run.length == 4 && run.all hexDigit then
      advance 4
      scalar (Numeral.positional 16 run) 6
    else
      abort (.defect .shortEscape) 2

/-- The rest of an escape, from behind the backslash. -/
def escapeSequence : Grammar Char := do
  match ← peek with
  | some c =>
    match EscapeTable.text.lookup c with
    | some meaning =>
      advance 1
      return meaning
    | none =>
      if c == 'u' then
        advance 1
        unicodeEscape
      else fail "an escape sequence"
  | none => fail "an escape sequence"

/-- One step through a double-quoted text. -/
def doubleQuoteStep (draft : TextDraft) : Grammar (TextDraft ⊕ Expr) := do
  if ← accept "\"" then
    return .inr draft.build
  else if ← accept "$\x7b" then
    return .inl (← interpolation draft)
  else if ← accept "\\" then
    return .inl (draft.add [← escapeSequence])
  else
    match ← takeIf printable with
    | some c => return .inl (draft.add [c])
    | none => fail "a text character or '\"'"

def doubleQuoteLiteral : Grammar Expr := do
  expect "\""
  iterate TextDraft.empty doubleQuoteStep

/-- One step through a multi-line text. Three quotes stand for two, and two quotes before an
interpolation mark make it plain text. -/
def singleQuoteStep (draft : TextDraft) : Grammar (TextDraft ⊕ Expr) := do
  if ← accept "$\x7b" then
    return .inl (← interpolation draft)
  else if ← accept "'''" then
    return .inl (draft.add ['\'', '\''])
  else if ← accept "''$\x7b" then
    return .inl (draft.add ['$', '{'])
  else if ← accept "''" then
    return .inr draft.build
  else if ← accept "\r\n" then
    return .inl (draft.add ['\r', '\n'])
  else
    match ← takeIf fun c => c == '\t' || c == '\n' || printable c with
    | some c => return .inl (draft.add [c])
    | none => fail "a text character or \"''\""

def singleQuoteLiteral : Grammar Expr := do
  expect "''"
  let _ ← expectAny ["\n", "\r\n"]
  iterate TextDraft.empty singleQuoteStep

def textLiteral : Grammar Expr :=
  choice [call .doubleQuoteLiteral, call .singleQuoteLiteral]

end DhallSyntax.Grammar
