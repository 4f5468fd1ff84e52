import DhallSyntax.Text.Script

/-!
Whole numbers and their digits. `positional` is the value of plain digits. Lenient numerals also
take blanks around them, a sign, single underscores and the digits of any script; a long text is
read in slices of a thousand characters, each of which is such a numeral of its own, and a long
number is written in slices of a thousand digits.
-/

namespace DhallSyntax

/-- Powers of whole numbers are the core library's, whatever other ones are in scope. -/
scoped instance (priority := 2000) natPow : Pow Nat Nat := instPowNat

@[inherit_doc natPow]
scoped instance (priority := 2000) intPow : Pow Int Nat := instPowNat

end DhallSyntax

namespace DhallSyntax.Numeral

/-- A letter or decimal digit as a digit, letters counting from ten in either case. -/
def digitValue? (c : Char) : Option Nat :=
  if 'a' ≤ c && c ≤ 'z' then some (c.toNat - 'a'.toNat + 10)
  else if 'A' ≤ c && c ≤ 'Z' then some (c.toNat - 'A'.toNat + 10)
  else decimalDigit? c

/-- The value of a run of digits; what is no digit counts as zero. -/
def positional (base : Nat) (digits : List Char) : Nat :=
  digits.foldl (fun value c => value * base + (digitValue? c).getD 0) 0

/-- The decimal digits of a number, without leading zeros. -/
def digitsOf (n : Nat) : List Char :=
  Nat.toDigits 10 n

/-- The decimal text of an integer: digits, after a minus if it is negative. -/
def write (n : Int) : String :=
  String.ofList (if n < 0 then '-' :: digitsOf n.natAbs else digitsOf n.natAbs)

def isBlank (c : Char) : Bool :=
  isAsciiBlank c || isWideBlank c

def trim (s : List Char) : List Char :=
  ((s.dropWhile isBlank).reverse.dropWhile isBlank).reverse

/-- Digits with single underscores between them. `afterDigit` tells whether an underscore or the
end may come next. -/
def separated? (base : Nat) (value : Nat) (afterDigit : Bool) : List Char → Option Nat
  | [] => if afterDigit then some value else none
  | c :: rest =>
    if c == '_' then
      if afterDigit then separated? base value false rest else none
    else
      match digitValue? c with
      | some d => if d < base then separated? base (value * base + d) true rest else none
      | none => none

/-- The letter that may follow a zero in front of a numeral of the base, in lower case. -/
def marker? : Nat → Option Char
  | 16 => some 'x'
  | 8 => some 'o'
  | 2 => some 'b'
  | _ => none

/-- Drops the mark of the base, such as `0x`, and one underscore behind it. -/
def dropMark (base : Nat) (s : List Char) : List Char :=
  match s with
  | c :: d :: rest =>
    if decimalDigit? c == some 0 && marker? base == some d.toLower then
      match rest with
      | '_' :: rest => rest
      | _ => rest
    else s
  | _ => s

/-- Splits off a leading sign; `true` stands for a minus. -/
def splitSign : List Char → Bool × List Char
  | '+' :: rest => (false, rest)
  | '-' :: rest => (true, rest)
  | s => (false, s)

def applySign (negative : Bool) (n : Int) : Int :=
  if negative then -n else n

/-- One numeral with a sign of its own and blanks around it. -/
def read? (base : Nat) (s : List Char) : Option Int :=
  let (negative, digits) := splitSign (trim s)
  (separated? base 0 false (dropMark base digits)).map fun n => applySign negative n

/-- The base that the mark of a numeral tells, ten if it has none. -/
def markedBase (s : List Char) : Nat :=
  match s with
  | c :: d :: _ =>
    if decimalDigit? c == some 0 then
      ([2, 8, 16].find? fun base => marker? base == some d.toLower).getD 10
    else 10
  | _ => 10

/-- One numeral that tells its base itself. Without a mark only zero begins with a zero. -/
def readMarked? (s : List Char) : Option Int :=
  let digits := (splitSign (trim s)).2
  let base := markedBase digits
  let leadingZero := (digits.head?.bind decimalDigit?) == some 0
  (read? base s).filter fun n => base != 10 || !leadingZero || n = 0

/-- One numeral in a base from 2 to 36. Base zero stands for the one that the numeral tells. -/
def readIn? (base : Nat) (s : List Char) : Option Int :=
  if base = 0 then readMarked? s
  else if base < 2 || 36 < base then none
  else read? base s

/-- The length of a slice. -/
def sliceLength : Nat := 1000

/-- A text cut into slices, all but the last of full length. -/
def slices : List Char → List (List Char)
  | [] => []
  | c :: rest => (c :: rest).take sliceLength :: slices ((c :: rest).drop sliceLength)
termination_by s => s.length
decreasing_by
  simp only [List.length_drop, List.length_cons, sliceLength]
  omega

/-- Reads a text slice by slice: the value so far is shifted by the length of the next slice.
The empty text is zero, in any base. -/
def readSliced? (base : Nat) (s : List Char) : Option Int :=
  (slices s).foldlM (fun value slice =>
    (readIn? base slice).map fun n => value * (base : Int) ^ slice.length + n) 0

/-- The decimal digits of a number, with zeros in front up to a width. -/
def padded (width n : Nat) : List Char :=
  List.replicate (width - (digitsOf n).length) '0' ++ digitsOf n

/-- The decimal digits of a number of any size cut into slices, the last slice first. All but the
one in front are of full length. -/
def digitSlices (n : Nat) : List (List Char) :=
  if n < 10 ^ sliceLength then [digitsOf n]
  else padded sliceLength (n % 10 ^ sliceLength) :: digitSlices (n / 10 ^ sliceLength)
termination_by n
decreasing_by
  have hbase : 1 < 10 ^ sliceLength := Nat.one_lt_pow (by decide) (by decide)
  exact Nat.div_lt_self (by omega) hbase

/-- The decimal text of an integer of any size, converted slice by slice. -/
def writeSliced (n : Int) : String :=
  let digits := (digitSlices n.natAbs).reverse.flatten
  String.ofList (if n < 0 then '-' :: digits else digits)

/-- A decimal text of any length after an optional sign. -/
def readSigned? (s : List Char) : Option Int :=
  let (negative, digits) := splitSign s
  (readSliced? 10 digits).map fun n => applySign negative n

/-- The number of digits beyond which a number is no longer converted in one piece. -/
def conversionLimit : Nat := 4300

/-- A whole text as one numeral, refused when it has too many digits. -/
def readLimited? (s : List Char) : Option Int :=
  if (trim s).countP (fun c => (digitValue? c).isSome) > conversionLimit then none
  else read? 10 s

end DhallSyntax.Numeral
