import DhallSyntax.Text.CharClass

/-!
The parts of a URL as patterns over the text ahead. A pattern tells how many characters it takes,
or that it does not match. Parentheses and the comma belong to no part, so that a URL in
parentheses ends where it should.
-/

namespace DhallSyntax.Host

open CharClass

/-! Runs of characters -/

def unreserved : CharClass := fun c =>
  alphanumeric c || c == '-' || c == '.' || c == '_' || c == '~'

def subDelimiter : CharClass := fun c => "!$&'*+;=".toList.contains c

/-- The length of the longest run of characters of a class and of percent escapes. -/
def runLength (chars : CharClass) : List Char → Nat
  | '%' :: a :: b :: rest =>
    if hexDigit a && hexDigit b then runLength chars rest + 3 else 0
  | c :: rest => if chars c then runLength chars rest + 1 else 0
  | [] => 0

def userinfoChar : CharClass := fun c => unreserved c || subDelimiter c || c == ':'

def segmentChar : CharClass := fun c => userinfoChar c || c == '@'

def queryChar : CharClass := fun c => segmentChar c || c == '/' || c == '?'

/-! IPv4 -/

/-- What may follow an octet from 0 to 255 without leading zeros, longer octets first. -/
def afterOctet : List Char → List (List Char)
  | a :: b :: c :: rest =>
    (if (a == '2' && b == '5' && '0' ≤ c && c ≤ '5') ||
        (a == '2' && '0' ≤ b && b ≤ '4' && digit c) ||
        (a == '1' && digit b && digit c) then [rest] else []) ++
    (if '1' ≤ a && a ≤ '9' && digit b then [c :: rest] else []) ++
    (if digit a then [b :: c :: rest] else [])
  | [a, b] =>
    (if '1' ≤ a && a ≤ '9' && digit b then [[]] else []) ++ (if digit a then [[b]] else [])
  | [a] => if digit a then [[]] else []
  | [] => []

/-- What may follow a given character. -/
def afterChar (c : Char) : List Char → List (List Char)
  | d :: rest => if c == d then [rest] else []
  | [] => []

/-- What may follow a number of octets with a dot behind each, and one more octet. -/
def afterOctets : Nat → List Char → List (List Char)
  | 0, s => afterOctet s
  | n + 1, s => (afterOctet s).flatMap fun s => (afterChar '.' s).flatMap (afterOctets n)

/-- What may follow an IPv4 address, the preferred reading first. -/
def afterIPv4 (s : List Char) : List (List Char) :=
  afterOctets 3 s

/-- Whether a whole text is an IPv4 address. -/
def isIPv4 (s : List Char) : Bool :=
  (afterIPv4 s).any List.isEmpty

/-! IPv6 -/

/-- A group of one to four hexadecimal digits. -/
def isGroup (s : List Char) : Bool :=
  1 ≤ s.length && s.length ≤ 4 && s.all hexDigit

/-- The text before the first colon and the text behind it. -/
def splitColon? : List Char → Option (List Char × List Char)
  | [] => none
  | ':' :: rest => some ([], rest)
  | c :: rest => (splitColon? rest).map fun (head, tail) => (c :: head, tail)

/-- The text before the first two colons in a row and the text behind them. -/
def splitGap? : List Char → Option (List Char × List Char)
  | [] => none
  | ':' :: ':' :: rest => some ([], rest)
  | c :: rest => (splitGap? rest).map fun (head, tail) => (c :: head, tail)

/-- What follows a number of groups with a colon behind each. -/
def afterGroups? : Nat → List Char → Option (List Char)
  | 0, s => some s
  | n + 1, s => do
    let (group, rest) ← splitColon? s
    if isGroup group then afterGroups? n rest else none

/-- How the text behind the counted groups of an address ends. -/
inductive Ending where
  /-- In two groups or an IPv4 address. -/
  | lastTwo
  /-- In one group. -/
  | lastOne
  /-- In nothing. -/
  | nothing
deriving DecidableEq, Repr

def Ending.accepts : Ending → List Char → Bool
  | lastTwo, s =>
    isIPv4 s ||
      match splitColon? s with
      | some (a, b) => isGroup a && isGroup b
      | none => false
  | lastOne, s => isGroup s
  | nothing, s => s.isEmpty

/-- Groups separated by single colons, at least one and at most `bound` of them. -/
def isGroupsUpTo : Nat → List Char → Bool
  | 0, _ => false
  | n + 1, s =>
    match splitColon? s with
    | some (group, rest) => isGroup group && isGroupsUpTo n rest
    | none => isGroup s

/-- One form of an IPv6 address: how many groups may precede the gap, if the form has a gap, how
many groups follow it, and how the address ends. -/
structure AddressForm where
  before : Option Nat
  groups : Nat
  ending : Ending
deriving DecidableEq, Repr

/-- The nine forms of an IPv6 address. -/
def addressForms : List AddressForm :=
  [⟨none, 6, .lastTwo⟩,
   ⟨some 0, 5, .lastTwo⟩,
   ⟨some 1, 4, .lastTwo⟩,
   ⟨some 2, 3, .lastTwo⟩,
   ⟨some 3, 2, .lastTwo⟩,
   ⟨some 4, 1, .lastTwo⟩,
   ⟨some 5, 0, .lastTwo⟩,
   ⟨some 6, 0, .lastOne⟩,
   ⟨some 7, 0, .nothing⟩]

namespace AddressForm

/-- Whether a text is what the form wants behind its gap, or altogether if it has none. -/
def acceptsRest (form : AddressForm) (s : List Char) : Bool :=
  match afterGroups? form.groups s with
  | some rest => form.ending.accepts rest
  | none => false

def accepts (form : AddressForm) (s : List Char) : Bool :=
  match form.before with
  | none => form.acceptsRest s
  | some bound =>
    match splitGap? s with
    | some (head, tail) => (head.isEmpty || isGroupsUpTo bound head) && form.acceptsRest tail
    | none => false

end AddressForm

def isIPv6 (s : List Char) : Bool :=
  addressForms.any fun form => form.accepts s

/-- A later version of IP addresses: a hexadecimal version, a dot and further characters. -/
def isIPvFuture : List Char → Bool
  | 'v' :: rest =>
    let version := rest.takeWhile hexDigit
    !version.isEmpty &&
      match rest.dropWhile hexDigit with
      | '.' :: address => !address.isEmpty && address.all userinfoChar
      | _ => false
  | _ => false

/-- An IPv6 or later address in brackets. -/
def bracketedLength? : List Char → Option Nat
  | '[' :: rest =>
    let address := rest.takeWhile (· != ']')
    if address.length < rest.length && (isIPv6 address || isIPvFuture address) then
      some (address.length + 2)
    else none
  | _ => none

def ipv4Length? (s : List Char) : Option Nat :=
  (afterIPv4 s).head?.map fun rest => s.length - rest.length

/-! Domain names -/

/-- The length of the rest of a domain label, from a letter or digit on: letters and digits, and
hyphens before a letter or digit. `hyphens` of them have just been passed. -/
def labelLength (hyphens : Nat) : List Char → Nat
  | c :: rest =>
    if alphanumeric c then hyphens + 1 + labelLength 0 rest
    else if c == '-' then labelLength (hyphens + 1) rest
    else 0
  | [] => 0

/-- The length of further labels, each with a dot in front, and of a dot at the very end. -/
def furtherLabelsLength (bound : Nat) (s : List Char) : Nat :=
  match bound, s with
  | bound + 1, '.' :: rest =>
    match rest with
    | c :: _ =>
      if alphanumeric c then
        let n := labelLength 0 rest
        n + 1 + furtherLabelsLength bound (rest.drop n)
      else 1
    | [] => 1
  | _, _ => 0

def domainLength? (s : List Char) : Option Nat :=
  match s with
  | c :: _ =>
    if alphanumeric c then
      let n := labelLength 0 s
      some (n + furtherLabelsLength s.length (s.drop n))
    else none
  | [] => none

/-- A host: an address in brackets, an IPv4 address or a domain name, tried in this order. -/
def length? (s : List Char) : Option Nat :=
  (bracketedLength? s).or ((ipv4Length? s).or (domainLength? s))

end DhallSyntax.Host
