import DhallSyntax.Number.Numeral
import DhallSyntax.Yaml.Token

/-!
Directives, anchors, aliases and tags: what a YAML text says about its nodes.
-/

namespace DhallSyntax.Yaml

namespace Scan

/-- The characters of names. -/
def isNameChar : CharClass := fun c =>
  CharClass.digit c || CharClass.alpha c || c == '-' || c == '_'

/-- What may come behind a word on its line. -/
def isSpaceOrBreak : CharClass := fun c => c == ' ' || isAnyBreak c

/-- A name of at least one character. -/
def name : Scan String := do
  let run ← takeWhile isNameChar
  if run.isEmpty then fail
  return String.ofList run

/-- The name of an anchor behind its mark. -/
def anchorName : Scan String := do
  skip 1
  let found ← name
  requireEnd fun c => isBlankOrBreak c || "?:,]\x7d%@\x60".toList.contains c
  return found

/-! Tags -/

/-- A handle: one mark, or a name between two. -/
def tagHandle : Scan String := do
  unless (← peek) == some '!' do fail
  if (← peek 1) == some ' ' then
    skip 1
    return "!"
  skip 1
  let run ← takeWhile isNameChar
  unless (← peek) == some '!' do fail
  skip 1
  return String.ofList ('!' :: run ++ ['!'])

/-- The characters of tags that stand for themselves. -/
def isTagChar : CharClass := fun c =>
  CharClass.digit c || CharClass.alpha c || "-;/?:@&=+$,_.!~*'()[]".toList.contains c

/-- The bytes of a run of escapes: a percent sign and two hexadecimal digits each. -/
def escapedBytes : List Char → Except Error (List UInt8 × List Char)
  | '%' :: a :: b :: rest =>
    if CharClass.hexDigit a && CharClass.hexDigit b then do
      let (bytes, rest) ← escapedBytes rest
      return (UInt8.ofNat (Numeral.positional 16 [a, b]) :: bytes, rest)
    else .error .malformed
  | '%' :: _ => .error .malformed
  | s => .ok ([], s)

/-- The text of a tag with its escapes resolved. -/
def tagText : (bound : Nat) → List Char → Except Error (List Char)
  | 0, _ => .ok []
  | _, [] => .ok []
  | bound + 1, c :: rest =>
    if c == '%' then do
      let (bytes, rest) ← escapedBytes (c :: rest)
      match String.fromUTF8? ⟨bytes.toArray⟩ with
      | some s => return s.toList ++ (← tagText bound rest)
      | none => throw .malformed
    else do return c :: (← tagText bound rest)

/-- The rest of a tag, or what a handle stands for. -/
def tagSuffix : Scan String := do
  let run ← takeWhile fun c => isTagChar c || c == '%'
  if run.isEmpty then fail
  match tagText run.length run with
  | .ok s => return String.ofList s
  | .error e => throw e

/-- Whether a second mark follows before the next blank. -/
def hasHandle (s : List Char) : Bool :=
  (s.takeWhile fun c => !isSpaceOrBreak c).contains '!'

def tag : Scan WrittenTag := do
  let written : WrittenTag ←
    match ← peek 1 with
    | some '<' => do
      skip 2
      let suffix ← tagSuffix
      unless (← peek) == some '>' do fail
      skip 1
      pure ⟨none, suffix⟩
    | next => do
      if next.all isBlankOrBreak then
        skip 1
        pure ⟨none, "!"⟩
      else if hasHandle ((← get).rest.drop 1) then
        let handle ← tagHandle
        pure ⟨some handle, ← tagSuffix⟩
      else
        skip 1
        pure ⟨some "!", ← tagSuffix⟩
  requireEnd isSpaceOrBreak
  return written

/-! Directives -/

/-- A number of a version. -/
def versionNumber : Scan Nat := do
  let digits ← takeWhile CharClass.digit
  if digits.isEmpty then fail
  if Numeral.conversionLimit < digits.length then throw .badNumber
  return Numeral.positional 10 digits

def version : Scan Directive := do
  skipSpaces
  let major ← versionNumber
  unless (← peek) == some '.' do fail
  skip 1
  let minor ← versionNumber
  requireEnd isSpaceOrBreak
  return .version major minor

def handleMeaning : Scan Directive := do
  skipSpaces
  let handle ← tagHandle
  unless (← peek) == some ' ' do fail
  skipSpaces
  let meaning ← tagSuffix
  requireEnd isSpaceOrBreak
  return .handle handle meaning

/-- A directive from its percent sign to the end of its line. -/
def directive : Scan Directive := do
  skip 1
  let word ← name
  requireEnd isSpaceOrBreak
  let found ←
    if word == "YAML" then version
    else if word == "TAG" then handleMeaning
    else do
      let _ ← takeWhile fun c => !isAnyBreak c
      pure .other
  endLine
  return found

end Scan

end DhallSyntax.Yaml
