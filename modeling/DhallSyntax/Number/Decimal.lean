import DhallSyntax.Number.Numeral

/-!
Decimal numbers as they are written: a sign, a coefficient and an exponent of ten, none of them
rounded, together with the infinities and the values that are no number.
-/

namespace DhallSyntax

namespace Decimal

def maxExponent : Int := 999999999999999999

def minExponent : Int := -1999999999999999997

/-- The exponent of the first digit. -/
def adjusted (coefficient : Nat) (exponent : Int) : Int :=
  exponent + (Numeral.digitsOf coefficient).length - 1

/-- The bounds on the exponents of the first and the last digit. -/
abbrev InBounds (coefficient : Nat) (exponent : Int) : Prop :=
  adjusted coefficient exponent ≤ maxExponent ∧ minExponent ≤ exponent

end Decimal

/-- An exact decimal. A value that is no number may be signaling and carry a payload, zero
standing for none. -/
inductive Decimal where
  | finite (negative : Bool) (coefficient : Nat) (exponent : Int)
    {bounded : Decimal.InBounds coefficient exponent}
  | infinity (negative : Bool)
  | nan (negative signaling : Bool) (payload : Nat)
deriving DecidableEq, Repr

namespace Decimal

/-- A finite decimal, if its exponents are within bounds. -/
def ofParts? (negative : Bool) (coefficient : Nat) (exponent : Int) : Option Decimal :=
  if h : InBounds coefficient exponent then some (@finite negative coefficient exponent h)
  else none

def signText (negative : Bool) : String :=
  if negative then "-" else ""

/-- Plain notation, when the exponent is not positive and the number not too small. -/
def plainText (digits : List Char) (places : Nat) : String :=
  let padded := List.replicate (places + 1 - digits.length) '0' ++ digits
  let whole := padded.take (padded.length - places)
  let fraction := padded.drop (padded.length - places)
  String.ofList (if places = 0 then whole else whole ++ '.' :: fraction)

/-- One digit before the point and a signed exponent. -/
def scientificText (digits : List Char) (exponent : Int) : String :=
  let mantissa := match digits with
    | first :: second :: rest => first :: '.' :: second :: rest
    | _ => digits
  String.ofList mantissa ++ (if exponent < 0 then "E-" else "E+") ++
    String.ofList (Numeral.digitsOf exponent.natAbs)

/-- The text of a decimal. It keeps every digit of the coefficient and the exponent. -/
def text : Decimal → String
  | finite negative coefficient exponent =>
    let digits := Numeral.digitsOf coefficient
    let lead := adjusted coefficient exponent
    signText negative ++
      if exponent ≤ 0 && -6 ≤ lead then plainText digits exponent.natAbs
      else scientificText digits lead
  | infinity negative => signText negative ++ "Infinity"
  | nan negative signaling payload =>
    signText negative ++ (if signaling then "sNaN" else "NaN") ++
      if payload = 0 then "" else String.ofList (Numeral.digitsOf payload)

/-! Reading -/

/-- Replaces the digits of other scripts by those of ASCII. -/
def plainDigit (c : Char) : Char :=
  match decimalDigit? c with
  | some d => Nat.digitChar d
  | none => c

def isBlank (c : Char) : Bool :=
  Numeral.isBlank c || isSeparatorControl c

/-- Drops the blanks around a text and the underscores in it. -/
def cleaned (s : List Char) : List Char :=
  let s := ((s.dropWhile isBlank).reverse.dropWhile isBlank).reverse
  (s.filter (· != '_')).map plainDigit

/-- The exponent behind the digits, zero if nothing stands there. -/
def readExponent? : List Char → Option Int
  | [] => some 0
  | c :: rest =>
    let (negative, digits) := Numeral.splitSign rest
    if c.toLower == 'e' && !digits.isEmpty && digits.all Char.isDigit then
      some (Numeral.applySign negative (Numeral.positional 10 digits))
    else none

/-- The coefficient and the exponent of digits with at most one point among them. -/
def readParts? (s : List Char) : Option (Nat × Int) := do
  let whole := s.takeWhile Char.isDigit
  let s := s.dropWhile Char.isDigit
  let (fraction, s) := match s with
    | '.' :: rest => (rest.takeWhile Char.isDigit, rest.dropWhile Char.isDigit)
    | _ => ([], s)
  if whole.isEmpty && fraction.isEmpty then none
  else return (Numeral.positional 10 (whole ++ fraction), (← readExponent? s) - fraction.length)

def readFinite? (negative : Bool) (s : List Char) : Option Decimal := do
  let (coefficient, exponent) ← readParts? s
  ofParts? negative coefficient exponent

/-- The words for values that are not finite, in lower case. -/
def readSpecial? (negative : Bool) (s : List Char) : Option Decimal :=
  let payload? (signaling : Bool) (digits : List Char) : Option Decimal :=
    if digits.all Char.isDigit then
      some (nan negative signaling (Numeral.positional 10 digits))
    else none
  match s with
  | ['i', 'n', 'f'] => some (infinity negative)
  | ['i', 'n', 'f', 'i', 'n', 'i', 't', 'y'] => some (infinity negative)
  | 'n' :: 'a' :: 'n' :: digits => payload? false digits
  | 's' :: 'n' :: 'a' :: 'n' :: digits => payload? true digits
  | _ => none

/-- Reads a decimal in any of its spellings. -/
def read? (s : String) : Option Decimal :=
  let (negative, rest) := Numeral.splitSign (cleaned s.toList)
  (readSpecial? negative (rest.map Char.toLower)).or (readFinite? negative rest)

end Decimal

end DhallSyntax
