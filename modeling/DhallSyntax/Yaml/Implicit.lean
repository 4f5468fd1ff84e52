import DhallSyntax.Text.Pattern

/-!
What a plain YAML scalar stands for when no tag says so. The first type whose pattern matches the
whole scalar is taken; a scalar that matches none is a text.
-/

namespace DhallSyntax.Yaml

/-- The types that a plain scalar may have. -/
inductive ScalarType where
  | bool
  | float
  | int
  | merge
  | null
  | timestamp
  | value
  | text
deriving DecidableEq, Repr

namespace ScalarType

open Pattern

/-- A word as it is, capitalized, or in upper case. -/
def inThreeCases (w : String) : List String :=
  [w, String.ofList ((w.toList.take 1).map Char.toUpper ++ w.toList.drop 1),
   String.ofList (w.toList.map Char.toUpper)]

def boolPattern : Pattern :=
  words (["yes", "no", "true", "false", "on", "off"].flatMap inThreeCases)

def sign : Pattern := maybe (anyOf "+-")

def digits : Pattern := many1 (one CharClass.digit)

/-- Digits and underscores. -/
def spacedDigit : Pattern := anyOf "0123456789_"

/-- A colon and a number below sixty. -/
def sixtieth : Pattern := sequence [char ':', maybe (anyOf "012345"), one CharClass.digit]

def floatPattern : Pattern :=
  let exponent := maybe (sequence [anyOf "eE", anyOf "+-", digits])
  oneOf
    [sequence [sign, one CharClass.digit, many spacedDigit, char '.', many spacedDigit, exponent],
     sequence [char '.', one CharClass.digit, many spacedDigit, exponent],
     sequence [sign, one CharClass.digit, many spacedDigit, many1 sixtieth, char '.',
       many spacedDigit],
     sequence [sign, char '.', words (inThreeCases "inf")],
     seq (char '.') (words ["nan", "NaN", "NAN"])]

def intPattern : Pattern :=
  let nonZero := anyOf "123456789"
  oneOf
    [sequence [sign, word "0b", many1 (anyOf "01_")],
     sequence [sign, char '0', many1 (anyOf "01234567_")],
     seq sign (either (char '0') (seq nonZero (many spacedDigit))),
     sequence [sign, word "0x", many1 (one fun c => CharClass.hexDigit c || c == '_')],
     sequence [sign, nonZero, many spacedDigit, many1 sixtieth]]

def nullPattern : Pattern := words (["~", ""] ++ inThreeCases "null")

def timestampPattern : Pattern :=
  let digit := one CharClass.digit
  let one2 := seq digit (maybe digit)
  let two := exactly 2 digit
  let blanks := anyOf " \t"
  let zone := either (char 'Z')
    (sequence [anyOf "+-", one2, maybe (seq (char ':') two)])
  either
    (sequence [exactly 4 digit, char '-', two, char '-', two])
    (sequence
      [exactly 4 digit, char '-', one2, char '-', one2, either (anyOf "Tt") (many1 blanks), one2,
       char ':', two, char ':', two, maybe (seq (char '.') (many digit)),
       maybe (seq (many blanks) zone)])

/-- The patterns in the order in which they are tried. -/
def patterns : List (ScalarType × Pattern) :=
  [(bool, boolPattern), (float, floatPattern), (int, intPattern), (merge, word "<<"),
   (null, nullPattern), (timestamp, timestampPattern), (value, word "=")]

/-- The type of a plain scalar. -/
def ofPlain (s : List Char) : ScalarType :=
  ((patterns.find? fun entry => entry.2.matchesAll s).map Prod.fst).getD text

end ScalarType

end DhallSyntax.Yaml
