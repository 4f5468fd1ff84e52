import DhallSyntax.Document.Basic
import DhallSyntax.Yaml.Chars
import DhallSyntax.Yaml.Implicit

/-!
Documents as YAML text in block style. A text is written plain if it reads back as itself, else
between single quotes, else between double quotes; long ones are folded behind column 80.
-/

namespace DhallSyntax.Yaml

/-! Choosing a style -/

/-- The ways to write a text. -/
inductive Style where
  | plain
  | single
  | double
deriving DecidableEq, Repr

/-- Neighbouring characters of a text, from the left. -/
def neighbours (s : List Char) : List (Char × Char) := s.zip s.tail

/-- A blank or line break next, or the end of the text. -/
def isBlankNext (rest : List Char) : Bool :=
  match rest with
  | c :: _ => c == '\x00' || isBlankOrBreak c
  | [] => true

/-- Marks that no plain scalar begins with. -/
def hasLeadingMark (s : List Char) : Bool :=
  match s with
  | c :: rest =>
    "#,[]\x7b\x7d&*!|>'\"%@`".toList.contains c ||
      (isBlankNext rest && (c == '-' || c == '?' || c == ':'))
  | [] => false

/-- Marks inside a plain scalar: a colon before a blank, or a number sign behind one. -/
def hasInnerMark : List Char → Bool
  | [] => false
  | c :: rest =>
    (match rest with
      | ':' :: tail => isBlankNext tail
      | '#' :: _ => c == '\x00' || isBlankOrBreak c
      | _ => false) || hasInnerMark rest

/-- Whether a text begins with a mark between documents. -/
def hasDocumentMark (s : List Char) : Bool :=
  "---".toList.isPrefixOf s || "...".toList.isPrefixOf s

/-- Only double quotes can hold special characters and spaces next to line breaks. -/
def needsDouble (s : List Char) : Bool :=
  s.any (fun c => !isOrdinary c) ||
    (neighbours s).any fun (a, b) => (a == ' ' && isBreak b) || (isBreak a && b == ' ')

/-- Whether a text may be written plain, apart from what it would be read as. -/
def allowsPlain (s : List Char) : Bool :=
  !(hasDocumentMark s || hasLeadingMark s || hasInnerMark s || s.any isBreak || needsDouble s ||
    s.head? == some ' ' || s.getLast? == some ' ')

def styleOf (s : List Char) : Style :=
  if allowsPlain s && ScalarType.ofPlain s == .text then .plain
  else if needsDouble s then .double
  else .single

/-! Writing texts -/

/-- The column behind which texts are folded. -/
def width : Nat := 80

/-- A line break and the indentation of the next line. -/
def newLine (indent : Nat) : List Char := '\n' :: List.replicate indent ' '

/-- A plain or single-quoted text from a column on; `shown` writes a character, `previous` is the
one before. A single space beyond the width becomes a line break, unless it is the first or the
last character. A run of line breaks is written with one more line feed if it begins with one, and
with the indentation behind it. -/
def flowText (indent : Nat) (shown : Char → List Char) :
    (previous : Option Char) → (column : Nat) → List Char → List Char
  | _, _, [] => []
  | previous, column, c :: rest =>
    if isBreak c then
      let opening := if !previous.any isBreak && c == '\n' then ['\n'] else []
      let closing := if rest.head?.any isBreak then [] else List.replicate indent ' '
      opening ++ c :: closing ++ flowText indent shown (some c) closing.length rest
    else if c == ' ' && width < column && previous.any (· != ' ') &&
        rest.head?.any (· != ' ') then
      newLine indent ++ flowText indent shown (some c) indent rest
    else
      let text := shown c
      text ++ flowText indent shown (some c) (column + text.length) rest

/-- A character between single quotes. -/
def singleShown (c : Char) : List Char := if c == '\'' then ['\'', '\''] else [c]

/-- An escape between double quotes: a letter, or the code in two, four or eight digits. -/
def doubleEscape (c : Char) : List Char :=
  let code (mark : Char) (digits : Nat) : List Char :=
    '\\' :: mark :: (hexDigits digits c.toNat).toList.map Char.toUpper
  match escapeLetters.lookup c with
  | some letter => ['\\', letter]
  | none =>
    if c.toNat ≤ 0xff then code 'x' 2
    else if c.toNat ≤ 0xffff then code 'u' 4
    else code 'U' 8

/-- A double-quoted text from a column on. `pending` holds, in reverse, what is not written yet.
Beyond the width a line ends with a backslash, in front of a space or behind an escape; a space at
the beginning of a line has a backslash too. -/
def doubleText (indent : Nat) :
    (isFirst : Bool) → (pending : List Char) → (column : Nat) → List Char → List Char
  | _, pending, _, [] => pending.reverse
  | isFirst, pending, column, c :: rest =>
    let mayFold := !isFirst && !rest.isEmpty
    if isShownInDouble c then
      if mayFold && (c == ' ' || pending.isEmpty) && width < column + pending.length then
        let mark := if c == ' ' then ['\\'] else []
        pending.reverse ++ '\\' :: newLine indent ++ mark ++
          doubleText indent false [c] (indent + mark.length) rest
      else
        doubleText indent false (c :: pending) column rest
    else
      let escape := doubleEscape c
      let column := column + pending.length + escape.length
      let written := pending.reverse ++ escape
      if mayFold && width + 1 < column then
        let mark := if rest.head? == some ' ' then ['\\'] else []
        written ++ '\\' :: newLine indent ++ mark ++
          doubleText indent false [] (indent + mark.length) rest
      else
        written ++ doubleText indent false [] column rest

/-- A text behind a space. Its further lines are indented, and `column` is where the space is. -/
def textScalar (indent column : Nat) (s : String) : List Char :=
  let s := s.toList
  match styleOf s with
  | .plain => ' ' :: flowText indent (fun c => [c]) none (column + 1) s
  | .single => ' ' :: '\'' :: flowText indent singleShown none (column + 2) s ++ ['\'']
  | .double => ' ' :: '"' :: doubleText indent true [] (column + 2) s ++ ['"']

/-! Writing documents -/

def floatText : Binary64 → String
  | .infinity negative => Decimal.signText negative ++ ".inf"
  | .nan => ".nan"
  | f => f.text

/-- A scalar behind a space. -/
def scalarText (indent column : Nat) : Scalar → List Char
  | .null => " null".toList
  | .bool b => if b then " true".toList else " false".toList
  | .int n => ' ' :: (Numeral.write n).toList
  | .float f => ' ' :: (floatText f).toList
  | .text s => textScalar indent column s
  | .time t => ' ' :: t.written.toList

/-- A key in front of its colon. Texts have to be such that they are written plain. -/
def keyText : Scalar → List Char
  | .text s => s.toList
  | s => (scalarText 0 0 s).drop 1

/-- The step of indentation. -/
def step : Nat := 2

mutual

/-- A document behind a key at an indentation; `column` is where the text behind the colon
begins. A list stands at the indentation of its key. A collection is not written again inside
itself. -/
def valueText (indent column : Nat) : Document → List Char
  | .list (item :: rest) => newLine indent ++ itemsText indent (item :: rest)
  | .object (entry :: rest) =>
    newLine (indent + step) ++ entriesText (indent + step) (entry :: rest)
  | .list [] => " []".toList
  | .object [] => " \x7b\x7d".toList
  | .scalar s => scalarText (indent + step) column s
  | .knot _ d => valueText indent column d
  | .again _ => " null".toList

/-- A document behind a dash at an indentation. -/
def itemText (indent : Nat) : Document → List Char
  | .list (item :: rest) => ' ' :: itemsText (indent + step) (item :: rest)
  | .object (entry :: rest) => ' ' :: entriesText (indent + step) (entry :: rest)
  | .list [] => " []".toList
  | .object [] => " \x7b\x7d".toList
  | .scalar s => scalarText (indent + step) (indent + 1) s
  | .knot _ d => itemText indent d
  | .again _ => " null".toList

/-- The items of a list, each behind a dash. -/
def itemsText (indent : Nat) : List Document → List Char
  | [] => []
  | item :: rest =>
    '-' :: itemText indent item ++ (if rest.isEmpty then [] else newLine indent) ++
      itemsText indent rest

/-- The entries of an object, a key and its value each. -/
def entriesText (indent : Nat) : List (Scalar × Document) → List Char
  | [] => []
  | (key, value) :: rest =>
    let shown := keyText key
    shown ++ ':' :: valueText indent (indent + shown.length + 1) value ++
      (if rest.isEmpty then [] else newLine indent) ++ entriesText indent rest

end

/-- The text of a document, which is an object with entries unless it has no parts. -/
def render : Document → String
  | .object (entry :: rest) => String.ofList (entriesText 0 (entry :: rest) ++ ['\n'])
  | d => String.ofList ((valueText 0 0 d).drop 1 ++ ['\n'])

end DhallSyntax.Yaml
