/-!
The character classes of the source text, and the two tables that say what the letter after a
backslash stands for.
-/

namespace DhallSyntax

/-- A set of characters. -/
abbrev CharClass := Char → Bool

namespace CharClass

/-- The letters `A` to `Z` in either case. -/
def alpha : CharClass := fun c =>
  ('A' ≤ c && c ≤ 'Z') || ('a' ≤ c && c ≤ 'z')

def digit : CharClass := fun c => '0' ≤ c && c ≤ '9'

def hexDigit : CharClass := fun c =>
  digit c || ('a' ≤ c && c ≤ 'f') || ('A' ≤ c && c ≤ 'F')

def alphanumeric : CharClass := fun c => alpha c || digit c

/-- What an unquoted label begins with. -/
def labelStart : CharClass := fun c => alpha c || c == '_'

/-- What an unquoted label goes on with. -/
def labelContinue : CharClass := fun c =>
  alphanumeric c || c == '-' || c == '/' || c == '_'

/-- Printable ASCII, the space included. -/
def printableAscii : CharClass := fun c => ' ' ≤ c && c ≤ '~'

/-- What stands between the backquotes of a quoted label. -/
def quotedLabel : CharClass := fun c => printableAscii c && c != '\x60'

/-- Unquoted path components: printable ASCII without the space and the delimiters. -/
def path : CharClass := fun c =>
  '!' ≤ c && c ≤ '~' && !"\"#(),/<>?[\\]\x7b\x7d".toList.contains c

/-- Every character beyond ASCII may stand in the source. -/
def nonAscii : CharClass := fun c => '\x80' ≤ c

/-- What may stand for itself in a text literal. -/
def printable : CharClass := fun c => printableAscii c || nonAscii c

/-- The classes that have a name of their own, in the order they are listed. -/
def named : List (String × CharClass) :=
  [("ALPHA", alpha), ("DIGITS", digit), ("HEXDIGITS", hexDigit), ("ALPHANUM", alphanumeric),
   ("LABEL_START", labelStart), ("LABEL_CONTINUE", labelContinue), ("PATH_CHARS", path)]

end CharClass

/-- A table from the letter after a backslash to the character it stands for. -/
abbrev EscapeTable := List (Char × Char)

namespace EscapeTable

/-- The escapes of a double-quoted text literal, `u` apart. -/
def text : EscapeTable :=
  [('"', '"'), ('$', '$'), ('\\', '\\'), ('/', '/'), ('b', '\x08'), ('f', '\x0c'), ('n', '\n'),
   ('r', '\r'), ('t', '\t')]

/-- The escapes of a quoted environment variable name. -/
def environment : EscapeTable :=
  [('"', '"'), ('\\', '\\'), ('a', '\x07'), ('b', '\x08'), ('f', '\x0c'), ('n', '\n'),
   ('r', '\r'), ('t', '\t'), ('v', '\x0b')]

end EscapeTable

end DhallSyntax
