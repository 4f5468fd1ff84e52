import DhallSyntax.Text.CharClass

/-!
Classes of characters in YAML texts.
-/

namespace DhallSyntax.Yaml

/-- Line breaks, the carriage return apart. -/
def isBreak : CharClass := fun c =>
  c == '\n' || c == '\x85' || c == '\u2028' || c == '\u2029'

/-- Line breaks, the carriage return included. -/
def isAnyBreak : CharClass := fun c => c == '\r' || isBreak c

/-- Spaces, tabs and line breaks. -/
def isBlankOrBreak : CharClass := fun c => c == ' ' || c == '\t' || isAnyBreak c

def isAsciiShown : CharClass := fun c => ' ' ≤ c && c ≤ '~'

/-- The characters of the basic plane beyond the control codes. -/
def isBasicPlane : CharClass := fun c => '\xa0' ≤ c && c.toNat ≤ 0xfffd

/-- The characters that a scalar shows outside double quotes, and the line feed. -/
def isOrdinary : CharClass := fun c =>
  c == '\n' || isAsciiShown c || c == '\x85' || (isBasicPlane c && c != '\ufeff') ||
    (0x10000 ≤ c.toNat && c.toNat ≤ 0x10fffe)

/-- The characters that stand for themselves between double quotes. -/
def isShownInDouble : CharClass := fun c =>
  (isAsciiShown c || isBasicPlane c) &&
    !(c == '"' || c == '\\' || c == '\u2028' || c == '\u2029' || c == '\ufeff')

/-- The characters that may stand in a YAML text at all. -/
def isAllowed : CharClass := fun c =>
  c == '\t' || c == '\n' || c == '\r' || isAsciiShown c || c == '\x85' || isBasicPlane c ||
    0x10000 ≤ c.toNat

/-- The letters behind a backslash that stand for special characters. -/
def escapeLetters : List (Char × Char) :=
  [('\x00', '0'), ('\x07', 'a'), ('\x08', 'b'), ('\t', 't'), ('\n', 'n'), ('\x0b', 'v'),
   ('\x0c', 'f'), ('\r', 'r'), ('\x1b', 'e'), ('"', '"'), ('\\', '\\'), ('\x85', 'N'),
   ('\xa0', '_'), ('\u2028', 'L'), ('\u2029', 'P')]

end DhallSyntax.Yaml
