import DhallSyntax.Number.Decimal

/-!
Doubles as exact values: a mantissa of at most 53 bits and an exponent of two. A decimal becomes
the double nearest to it; of two that are equally near, the one with the even mantissa.
-/

namespace DhallSyntax

/-- A double. A finite one has a mantissa of 53 bits unless its exponent is the least one. -/
inductive Binary64 where
  | finite (negative : Bool) (mantissa : Nat) (exponent : Int)
  | infinity (negative : Bool)
  | nan
deriving DecidableEq, Repr

namespace Binary64

def leastExponent : Int := -1074

def greatestExponent : Int := 971

/-- `n / d` rounded to a whole number, halves to the even neighbour. -/
def roundDiv (n d : Nat) : Nat :=
  let q := n / d
  let r := n % d
  if 2 * r < d then q
  else if d < 2 * r then q + 1
  else if q % 2 = 0 then q else q + 1

/-- `n / (d * 2 ^ e)` as a quotient of whole numbers. -/
def scaled (n d : Nat) (e : Int) : Nat × Nat :=
  if e < 0 then (n * 2 ^ e.natAbs, d) else (n, d * 2 ^ e.natAbs)

/-- The exponent at which the quotient of two positive numbers has 53 bits before the point. -/
def exponentOf (n d : Nat) : Int :=
  let low : Int := (n.log2 : Int) - d.log2 - 53
  let (p, q) := scaled n d low
  let fit := if p < q * 2 ^ (53 : Nat) then low else low + 1
  max fit leastExponent

/-- The double nearest to the quotient of two positive numbers. -/
def ofRatio (negative : Bool) (n d : Nat) : Binary64 :=
  let e := exponentOf n d
  let (p, q) := scaled n d e
  let m := roundDiv p q
  let (m, e) := if m = 2 ^ (53 : Nat) then (2 ^ (52 : Nat), e + 1) else (m, e)
  if e > greatestExponent then infinity negative else finite negative m e

/-- The double nearest to a coefficient times a power of ten. Far beyond the range no such power is
computed. -/
def ofParts (negative : Bool) (coefficient : Nat) (exponent : Int) : Binary64 :=
  let lead := Decimal.adjusted coefficient exponent
  if coefficient = 0 || lead < -326 then finite negative 0 leastExponent
  else if 309 < lead then infinity negative
  else if exponent < 0 then ofRatio negative coefficient (10 ^ exponent.natAbs)
  else ofRatio negative (coefficient * 10 ^ exponent.natAbs) 1

/-- The double nearest to a decimal. -/
def ofDecimal : Decimal → Binary64
  | .infinity negative => infinity negative
  | .nan _ _ _ => nan
  | .finite negative coefficient exponent => ofParts negative coefficient exponent

/-- The double nearest to a whole number times a power of two. -/
def ofScaled (n : Int) (e : Int) : Binary64 :=
  if n = 0 then finite false 0 leastExponent
  else
    let (p, q) := scaled n.natAbs 1 (-e)
    ofRatio (n < 0) p q

/-- The sum of two finite doubles, rounded. -/
def add : Binary64 → Binary64 → Binary64
  | finite s m e, finite t n f =>
    let low := min e f
    let shifted (negative : Bool) (m : Nat) (e : Int) : Int :=
      Numeral.applySign negative (m * 2 ^ (e - low).natAbs : Nat)
    ofScaled (shifted s m e + shifted t n f) low
  | finite _ _ _, other => other
  | other, _ => other

/-- The product of two doubles, rounded. -/
def mul : Binary64 → Binary64 → Binary64
  | finite s m e, finite t n f =>
    if m * n = 0 then finite (s != t) 0 leastExponent
    else ofScaled (Numeral.applySign (s != t) (m * n : Nat)) (e + f)
  | infinity s, infinity t => infinity (s != t)
  | infinity s, finite t m _ | finite s m _, infinity t =>
    if m = 0 then nan else infinity (s != t)
  | _, _ => nan

/-- A double times a whole number, which has to be within the range of doubles. -/
def scale? (n : Nat) (f : Binary64) : Option Binary64 :=
  match ofScaled n 0 with
  | .infinity _ => none
  | factor => some (f.mul factor)

/-- The same double with a sign put in front of it. -/
def withSign (negative : Bool) : Binary64 → Binary64
  | finite s m e => finite (s != negative) m e
  | infinity s => infinity (s != negative)
  | nan => nan

/-- The 64 bits of a double: sign, eleven of exponent, fifty-two of mantissa. -/
def bits : Binary64 → Nat
  | finite negative m e =>
    (if negative then 2 ^ (63 : Nat) else 0) +
      if m < 2 ^ (52 : Nat) then m else (e + 1075).toNat * 2 ^ (52 : Nat) + (m - 2 ^ (52 : Nat))
  | infinity negative => (if negative then 2 ^ (63 : Nat) else 0) + 0x7ff * 2 ^ (52 : Nat)
  | nan => 0x7ff8 * 2 ^ (48 : Nat)

/-- The whole part of a finite double. -/
def truncate (negative : Bool) (m : Nat) (e : Int) : Int :=
  Numeral.applySign negative
    (if e < 0 then m / 2 ^ e.natAbs else m * 2 ^ e.natAbs : Nat)

/-- The whole number that a double is, if it has no fraction. -/
def whole? : Binary64 → Option Int
  | finite negative m e =>
    if e < 0 && m % 2 ^ e.natAbs != 0 then none else some (truncate negative m e)
  | _ => none

end Binary64

end DhallSyntax
