import DhallSyntax.Document.Basic
import DhallSyntax.Text.CharClass

/-!
JSON texts as documents. A key that is repeated has its last value; the words for values that are
no finite numbers are accepted; nothing may precede or follow the value but blanks.
-/

namespace DhallSyntax.Json

/-- Why a text is not a document. -/
inductive Error where
  | malformed
  /-- An integer has more digits than are converted. -/
  | longInteger
  | tooDeep
deriving DecidableEq, Repr

def isBlank (c : Char) : Bool :=
  c == ' ' || c == '\t' || c == '\n' || c == '\r'

def skipBlanks (s : List Char) : List Char := s.dropWhile isBlank

/-! Strings -/

/-- Four hexadecimal digits. -/
def unit? : List Char → Option (Nat × List Char)
  | a :: b :: c :: d :: rest =>
    if [a, b, c, d].all CharClass.hexDigit then
      some (Numeral.positional 16 [a, b, c, d], rest)
    else none
  | _ => none

def isHigh (unit : Nat) : Bool := 0xd800 ≤ unit && unit ≤ 0xdbff

def isLow (unit : Nat) : Bool := 0xdc00 ≤ unit && unit ≤ 0xdfff

/-- The low half of a pair, when it follows. -/
def lowUnit? : List Char → Option (Nat × List Char)
  | '\\' :: 'u' :: rest =>
    match unit? rest with
    | some (low, rest) => if isLow low then some (low, rest) else none
    | none => none
  | _ => none

/-- The character that a coded unit stands for, together with the unit after it if the two are a
pair. A half without its other half becomes the replacement character. -/
def codedChar (unit : Nat) (rest : List Char) : Char × List Char :=
  if isHigh unit then
    match lowUnit? rest with
    | some (low, rest) => (Char.ofNat (0x10000 + (unit - 0xd800) * 0x400 + (low - 0xdc00)), rest)
    | none => ('\ufffd', rest)
  else if isLow unit then ('\ufffd', rest)
  else (Char.ofNat unit, rest)

/-- The letters that stand for a character behind a backslash. -/
def simpleEscapes : List (Char × Char) :=
  [('"', '"'), ('\\', '\\'), ('/', '/'), ('b', '\x08'), ('f', '\x0c'), ('n', '\n'), ('r', '\r'),
   ('t', '\t')]

/-- One character of a string, or `none` for the quote that ends it. -/
def stringStep : List Char → Except Error (Option Char × List Char)
  | '"' :: rest => .ok (none, rest)
  | '\\' :: 'u' :: rest =>
    match unit? rest with
    | some (unit, rest) =>
      let (c, rest) := codedChar unit rest
      .ok (some c, rest)
    | none => .error .malformed
  | '\\' :: c :: rest =>
    match simpleEscapes.lookup c with
    | some meaning => .ok (some meaning, rest)
    | none => .error .malformed
  | c :: rest => if c.toNat < 0x20 then .error .malformed else .ok (some c, rest)
  | [] => .error .malformed

/-- The rest of a string, which has at most as many characters as `bound`. -/
def stringRest :
    (bound read : List Char) → List Char → Except Error (String × List Char)
  | bound, read, s => do
    match ← stringStep s with
    | (none, rest) => return (String.ofList read.reverse, rest)
    | (some c, rest) =>
      match bound with
      | [] => throw .malformed
      | _ :: bound => stringRest bound (c :: read) rest

/-- The rest of a string, from behind its opening quote. -/
def string (s : List Char) : Except Error (String × List Char) :=
  stringRest s [] s

/-! Numbers -/

/-- The digits behind a point, if there are any. -/
def fraction? : List Char → Option (List Char × List Char)
  | '.' :: rest =>
    let digits := rest.takeWhile Char.isDigit
    if digits.isEmpty then none else some (digits, rest.dropWhile Char.isDigit)
  | _ => none

/-- The exponent behind its letter, if there is one. -/
def exponent? : List Char → Option (Int × List Char)
  | c :: rest =>
    if c == 'e' || c == 'E' then
      let (negative, rest) := Numeral.splitSign rest
      let digits := rest.takeWhile Char.isDigit
      if digits.isEmpty then none
      else
        some (Numeral.applySign negative (Numeral.positional 10 digits),
          rest.dropWhile Char.isDigit)
    else none
  | [] => none

/-- The digits before the point: a zero alone, or digits that do not begin with one. -/
def wholeDigits : List Char → List Char
  | '0' :: _ => ['0']
  | s => s.takeWhile Char.isDigit

/-- A number without its sign. With a fraction or an exponent it is a double. -/
def number (negative : Bool) (s : List Char) : Except Error (Document × List Char) :=
  let whole := wholeDigits s
  let rest := s.drop whole.length
  if whole.isEmpty then .error .malformed
  else
    match fraction? rest, exponent? ((fraction? rest).elim rest Prod.snd) with
    | none, none =>
      if whole.length ≤ Numeral.conversionLimit then
        .ok (.int (Numeral.applySign negative (Numeral.positional 10 whole)), rest)
      else .error .longInteger
    | fraction, exponent =>
      let digits := fraction.elim [] Prod.fst
      let power := exponent.elim 0 Prod.fst
      let value := Binary64.ofParts negative (Numeral.positional 10 (whole ++ digits))
        (power - digits.length)
      let rest := fraction.elim rest Prod.snd
      .ok (.float value, exponent.elim rest Prod.snd)

/-- The words that stand for values. -/
def words : List (String × Document) :=
  [("null", .null), ("true", .bool true), ("false", .bool false), ("NaN", .float .nan),
   ("Infinity", .float (.infinity false)), ("-Infinity", .float (.infinity true))]

/-- A value without parts. -/
def scalar (s : List Char) : Except Error (Document × List Char) :=
  match words.find? fun entry => entry.1.toList.isPrefixOf s with
  | some (word, value) => .ok (value, s.drop word.length)
  | none =>
    match s with
    | '"' :: rest => do
      let (text, rest) ← string rest
      return (.text text, rest)
    | '-' :: rest => number true rest
    | _ => number false s

/-! Lists and objects -/

section
variable (value : List Char → Except Error (Document × List Char))

/-- The items of a list from one item on, at most as many as `bound` has characters. -/
def itemsWithin :
    (bound : List Char) → (read : List Document) → List Char →
      Except Error (Document × List Char)
  | bound, read, s => do
    let (item, rest) ← value (skipBlanks s)
    match skipBlanks rest with
    | ']' :: rest => return (.list (item :: read).reverse, rest)
    | ',' :: rest =>
      match bound with
      | [] => throw .malformed
      | _ :: bound => itemsWithin bound (item :: read) rest
    | _ => throw .malformed

/-- A list from behind its opening bracket. -/
def items (s : List Char) : Except Error (Document × List Char) :=
  match skipBlanks s with
  | ']' :: rest => .ok (.list [], rest)
  | s => itemsWithin value s [] s

/-- A key, a colon and a value. -/
def entry (s : List Char) : Except Error ((Scalar × Document) × List Char) :=
  match skipBlanks s with
  | '"' :: rest => do
    let (key, rest) ← string rest
    match skipBlanks rest with
    | ':' :: rest => do
      let (d, rest) ← value (skipBlanks rest)
      return ((.text key, d), rest)
    | _ => throw .malformed
  | _ => .error .malformed

/-- The entries of an object from one entry on. -/
def entriesWithin :
    (bound : List Char) → (read : List (Scalar × Document)) → List Char →
      Except Error (Document × List Char)
  | bound, read, s => do
    let (entry, rest) ← entry value s
    match skipBlanks rest with
    | '}' :: rest => return (.object (Scalar.distinct (entry :: read).reverse), rest)
    | ',' :: rest =>
      match bound with
      | [] => throw .malformed
      | _ :: bound => entriesWithin bound (entry :: read) rest
    | _ => throw .malformed

/-- An object from behind its opening brace. -/
def entries (s : List Char) : Except Error (Document × List Char) :=
  match skipBlanks s with
  | '}' :: rest => .ok (.object [], rest)
  | s => entriesWithin value s [] s

end

/-- A value with at most `depth` lists and objects inside each other. -/
def valueWithin : (depth : Nat) → List Char → Except Error (Document × List Char)
  | depth, s =>
    match s with
    | '[' :: rest =>
      match depth with
      | 0 => .error .tooDeep
      | depth + 1 => items (valueWithin depth) rest
    | '{' :: rest =>
      match depth with
      | 0 => .error .tooDeep
      | depth + 1 => entries (valueWithin depth) rest
    | s => scalar s

/-- Reads a text with at most `depth` lists and objects inside each other. -/
def read (depth : Nat) (text : String) : Except Error Document := do
  let (d, rest) ← valueWithin depth (skipBlanks text.toList)
  if (skipBlanks rest).isEmpty then return d else throw .malformed

/-- How many lists and objects may be inside each other. A tree of the greatest depth has at most
three of them for each of its nodes. -/
def depthLimit : Nat := 800

end DhallSyntax.Json
