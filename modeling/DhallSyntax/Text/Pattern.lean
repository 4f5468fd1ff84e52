import DhallSyntax.Text.CharClass

/-!
Regular patterns and the texts they match. A pattern is matched by taking its derivative by one
character after the other: what it must match once that character is gone.
-/

namespace DhallSyntax

inductive Pattern where
  /-- Matches nothing. -/
  | never
  /-- Matches the empty text. -/
  | empty
  /-- Matches one character of a class. -/
  | one (chars : CharClass)
  | seq (first second : Pattern)
  | either (first second : Pattern)
  | many (part : Pattern)

namespace Pattern

/-- Whether a pattern matches the empty text. -/
def nullable : Pattern → Bool
  | never => false
  | empty => true
  | one _ => false
  | seq a b => nullable a && nullable b
  | either a b => nullable a || nullable b
  | many _ => true

/-- One pattern after another, without parts that never match or are empty. -/
def andThen : Pattern → Pattern → Pattern
  | never, _ => never
  | empty, b => b
  | a, b => seq a b

/-- One of two patterns, without one that never matches. -/
def orAlso : Pattern → Pattern → Pattern
  | never, b => b
  | a, never => a
  | a, b => either a b

/-- What is left to match behind a character. -/
def derivative (c : Char) : Pattern → Pattern
  | never => never
  | empty => never
  | one chars => if chars c then empty else never
  | seq a b =>
    let inFirst := andThen (derivative c a) b
    if nullable a then orAlso inFirst (derivative c b) else inFirst
  | either a b => orAlso (derivative c a) (derivative c b)
  | many a => andThen (derivative c a) (many a)

/-- Whether a pattern matches a whole text. -/
def matchesAll (p : Pattern) (s : List Char) : Bool :=
  nullable (s.foldl (fun p c => derivative c p) p)

/-! Patterns made of others -/

def char (c : Char) : Pattern := one (· == c)

def anyOf (chars : String) : Pattern := one fun c => chars.toList.contains c

def sequence : List Pattern → Pattern
  | [] => empty
  | p :: rest => seq p (sequence rest)

def oneOf : List Pattern → Pattern
  | [] => never
  | p :: rest => either p (oneOf rest)

def word (s : String) : Pattern := sequence (s.toList.map char)

def words (ws : List String) : Pattern := oneOf (ws.map word)

def maybe (p : Pattern) : Pattern := either p empty

def many1 (p : Pattern) : Pattern := seq p (many p)

def exactly (n : Nat) (p : Pattern) : Pattern := sequence (List.replicate n p)

end Pattern

end DhallSyntax
