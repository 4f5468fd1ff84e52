import DhallSyntax.Number.Binary64

/-!
The text of a double: the fewest digits that read back, and of those the nearest to the value.
-/

namespace DhallSyntax.Binary64

/-- The quotient `m * 2 ^ e`. -/
def ratio (m : Nat) (e : Int) : Nat × Nat :=
  if e < 0 then (m, 2 ^ e.natAbs) else (m * 2 ^ e.natAbs, 1)

/-- How many places the point has to move to the right until a positive quotient reaches one. -/
def placesBelowOne (n d : Nat) : Nat → Nat
  | 0 => 0
  | fuel + 1 => if d ≤ n then 0 else placesBelowOne (n * 10) d fuel + 1

/-- The exponent of ten of the first digit of a positive quotient. -/
def leadOf (n d : Nat) : Int :=
  if d ≤ n then (Numeral.digitsOf (n / d)).length - 1
  else -(placesBelowOne n d 400 : Int)

/-- The multiple of `10 ^ k` chosen for the value: of its two neighbours on that grid those that
read back, the nearer if both do, the even one if they are equally near. -/
def onGrid? (value : Binary64) (n d : Nat) (k : Int) : Option Nat :=
  let (n, d) := if k < 0 then (n * 10 ^ k.natAbs, d) else (n, d * 10 ^ k.natAbs)
  let low := n / d
  let readsBack (c : Nat) : Bool := c ≠ 0 && ofParts false c k == value
  match readsBack low, readsBack (low + 1) with
  | true, true => some (roundDiv n d)
  | true, false => some low
  | false, true => some (low + 1)
  | false, false => none

/-- The shortest digits of a positive double and the exponent of ten of the last one, searched
from `count` digits upwards. -/
def shortestFrom (value : Binary64) (n d : Nat) (lead : Int) (count : Nat) : Nat → Nat × Int
  | 0 => (n / d, 0)
  | fuel + 1 =>
    match onGrid? value n d (lead - count + 1) with
    | some c => (c, lead - count + 1)
    | none => shortestFrom value n d lead (count + 1) fuel

/-- Seventeen digits always read back. -/
def shortest (m : Nat) (e : Int) : Nat × Int :=
  let (n, d) := ratio m e
  shortestFrom (finite false m e) n d (leadOf n d) 1 17

/-- The digits without the zeros at their end, and the exponent of the last one left. -/
def dropZeros (digits : List Char) (exponent : Int) : List Char × Int :=
  let kept := (digits.reverse.dropWhile (· == '0')).reverse
  (kept, exponent + (digits.length - kept.length : Nat))

/-- Where positional notation ends: below `10 ^ -4` and from `10 ^ 16` on. -/
def isPositional (lead : Int) : Bool :=
  -4 ≤ lead && lead < 16

/-- Positional notation with at least one decimal. -/
def positionalText (digits : List Char) (exponent : Int) : String :=
  if exponent < 0 then Decimal.plainText digits exponent.natAbs
  else String.ofList (digits ++ List.replicate exponent.natAbs '0' ++ ['.', '0'])

/-- One digit before the point, and an exponent of at least two digits. -/
def exponentText (digits : List Char) (lead : Int) : String :=
  let mantissa := match digits with
    | first :: second :: rest => first :: '.' :: second :: rest
    | _ => digits
  let power := Numeral.digitsOf lead.natAbs
  String.ofList (mantissa ++ 'e' :: (if lead < 0 then '-' else '+') ::
    (List.replicate (2 - power.length) '0' ++ power))

/-- The text of a double. -/
def text : Binary64 → String
  | finite negative m e =>
    Decimal.signText negative ++
      if m = 0 then "0.0"
      else
        let (c, k) := shortest m e
        let (digits, exponent) := dropZeros (Numeral.digitsOf c) k
        let lead := exponent + digits.length - 1
        if isPositional lead then positionalText digits exponent else exponentText digits lead
  | infinity negative => Decimal.signText negative ++ "inf"
  | nan => "nan"

end DhallSyntax.Binary64
