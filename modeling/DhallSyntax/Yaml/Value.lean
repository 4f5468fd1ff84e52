import DhallSyntax.Document.Scalar
import DhallSyntax.Yaml.Implicit
import DhallSyntax.Yaml.Token

/-!
The values of YAML scalars by their types: numbers in several bases and in places of sixty, words
for truth values, dates and times.
-/

namespace DhallSyntax.Yaml

/-- A number in places of sixty, the first one leading. -/
def sexagesimal? (parts : List (List Char)) : Option Int :=
  parts.foldlM (fun value part => (Numeral.readLimited? part).map fun n => value * 60 + n) 0

/-- A whole number without its sign and underscores. A leading zero means base eight. -/
def wholeNumber? : List Char → Option Int
  | ['0'] => some 0
  | '0' :: 'b' :: digits => Numeral.read? 2 digits
  | '0' :: 'x' :: digits => Numeral.read? 16 digits
  | '0' :: digits => Numeral.read? 8 ('0' :: digits)
  | digits =>
    if digits.contains ':' then sexagesimal? (digits.splitOn ':')
    else Numeral.readLimited? digits

/-- A scalar without its underscores, and whether it begins with a minus. -/
def unsigned (s : List Char) : Bool × List Char :=
  Numeral.splitSign (s.filter (· != '_'))

def int? (s : List Char) : Option Int :=
  let (negative, digits) := unsigned s
  (wholeNumber? digits).map (Numeral.applySign negative)

/-- The double nearest to a decimal text. -/
def double? (s : List Char) : Option Binary64 :=
  let (negative, digits) := Numeral.splitSign (Decimal.cleaned s)
  if digits == "inf".toList || digits == "infinity".toList then some (.infinity negative)
  else if digits == "nan".toList then some .nan
  else
    (Decimal.readParts? digits).map fun (coefficient, exponent) =>
      .ofParts negative coefficient exponent

/-- A double in places of sixty. The places are added from the last one on, and none of them may
be worth more than any double. -/
def sexagesimalDouble (parts : List (List Char)) : Except Error Binary64 := do
  let some places := parts.reverse.mapM double? | throw .badNumber
  let some terms := (places.mapIdx fun place value => value.scale? (60 ^ place)).mapM id
    | throw .overflow
  return terms.foldl Binary64.add (.finite false 0 Binary64.leastExponent)

def floatOf (s : List Char) : Except Error Binary64 := do
  let (negative, text) := unsigned (s.map Char.toLower)
  let value ←
    if text == ".inf".toList then pure (.infinity false)
    else if text == ".nan".toList then pure .nan
    else if text.contains ':' then sexagesimalDouble (text.splitOn ':')
    else (double? text).elim (throw .badNumber) pure
  return value.withSign negative

/-- The words for truth values, in lower case. -/
def truthWords : List (String × Bool) :=
  [("yes", true), ("no", false), ("true", true), ("false", false), ("on", true), ("off", false)]

/-- A scalar of a type. The types for keys have no values. -/
def scalarValue (type : ScalarType) (text : String) : Except Error Scalar :=
  let s := text.toList
  match type with
  | .text => .ok (.text text)
  | .null => .ok .null
  | .bool =>
    let word := String.ofList (s.map Char.toLower)
    match truthWords.lookup word with
    | some b => .ok (.bool b)
    | none => .error (.badTruth word)
  | .int => (int? s).elim (.error .badNumber) fun n => .ok (.int n)
  | .float => (floatOf s).map .float
  | .timestamp =>
    let t := Timestamp.ofText s
    if t.isReal then .ok (.time t) else .error .badTime
  | .merge | .value => .error .malformed

end DhallSyntax.Yaml
