import DhallSyntax.Text.Printable

/-!
Text as messages show it: between single quotes, or between double quotes when that saves an
escape, with everything that has no visible form written as an escape.
-/

namespace DhallSyntax

/-- A number in lowercase hexadecimal, padded with zeros on the left to `width` digits. -/
def hexDigits (width n : Nat) : String :=
  let digits := Nat.toDigits 16 n
  String.ofList (List.replicate (width - digits.length) '0' ++ digits)

namespace Quoted

/-- The quote to use: double only for a text that holds a single quote and no double one. -/
def quoteFor (s : List Char) : Char :=
  if s.contains '\'' && !s.contains '"' then '"' else '\''

/-- One character as it stands between two `quote` characters. -/
def escape (quote c : Char) : String :=
  if c == quote || c == '\\' then String.ofList ['\\', c]
  else if c == '\n' then "\\n"
  else if c == '\r' then "\\r"
  else if c == '\t' then "\\t"
  else if isPrintable c then String.singleton c
  else if c.toNat < 0x100 then "\\x" ++ hexDigits 2 c.toNat
  else if c.toNat < 0x10000 then "\\u" ++ hexDigits 4 c.toNat
  else "\\U" ++ hexDigits 8 c.toNat

end Quoted

/-- A text between quotes, on one line and with visible characters only. -/
def quoted (s : String) : String :=
  let quote := Quoted.quoteFor s.toList
  String.singleton quote ++ String.join (s.toList.map (Quoted.escape quote)) ++
    String.singleton quote

end DhallSyntax
