import DhallSyntax.Text.Quoted

/-!
The faults that end a parse at once, whatever other alternatives there are.
-/

namespace DhallSyntax

/-- The classes of parse errors. -/
inductive ErrorKind where
  | mismatch
  | integrity
  | escape
  | trailing
  | nesting
deriving DecidableEq, Repr

namespace ErrorKind

def all : List ErrorKind := [mismatch, integrity, escape, trailing, nesting]

def name : ErrorKind → String
  | mismatch => "DhallSyntaxError"
  | integrity => "IntegrityFormatError"
  | escape => "EscapeError"
  | trailing => "TrailingInputError"
  | nesting => "NestingDepthError"

def ofName? (s : String) : Option ErrorKind :=
  all.find? fun kind => kind.name == s

end ErrorKind

/-- What is wrong with a source text at a place where no other alternative is tried. -/
inductive Defect where
  | emptyEscape
  | openEscape
  | longEscape
  | shortEscape
  | notScalar (code : Nat)
  | hashLength (found : Nat)
  | openComment
  | tooDeep (limit : Nat)
deriving DecidableEq, Repr

namespace Defect

/-- The number of hexadecimal digits of an integrity hash. -/
def hashDigits : Nat := 64

def kind : Defect → ErrorKind
  | emptyEscape | openEscape | longEscape | shortEscape | notScalar _ => .escape
  | hashLength _ => .integrity
  | openComment => .mismatch
  | tooDeep _ => .nesting

/-- A code point in uppercase hexadecimal, with at least four digits. -/
def codePoint (code : Nat) : String :=
  "U+" ++ (hexDigits 4 code).toUpper

def message : Defect → String
  | emptyEscape => "empty unicode escape"
  | openEscape => "unterminated unicode escape"
  | longEscape => "unicode escape has too many digits"
  | shortEscape => "expected four hexadecimal digits after \\u"
  | notScalar code => codePoint code ++ " is not a Unicode scalar value"
  | hashLength found =>
    "sha256 hash must have " ++ toString hashDigits ++ " hexadecimal digits, found " ++
      toString found
  | openComment => "unterminated block comment"
  | tooDeep limit => "expression nesting exceeds the maximum depth of " ++ toString limit

/-- What would have been accepted instead. -/
def expected : Defect → List String
  | hashLength _ => [toString hashDigits ++ " hexadecimal digits"]
  | openComment => ["'-\x7d'"]
  | _ => []

end Defect

/-- Why a parse cannot go on: a defect of the source, too many rules inside each other, or a
number beyond the bounds of decimals. -/
inductive Fault where
  | defect (d : Defect)
  | stackExhausted
  | numberRange
deriving DecidableEq, Repr

end DhallSyntax
