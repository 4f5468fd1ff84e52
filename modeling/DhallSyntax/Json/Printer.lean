import DhallSyntax.Document.Basic

/-!
Documents as JSON text, on one line or with one entry a line. Only what must be escaped is.
-/

namespace DhallSyntax.Json

/-- One character as it stands in a JSON string. -/
def escape (c : Char) : String :=
  if c == '"' then "\\\""
  else if c == '\\' then "\\\\"
  else if c == '\n' then "\\n"
  else if c == '\r' then "\\r"
  else if c == '\t' then "\\t"
  else if c == '\x0c' then "\\f"
  else if c == '\x08' then "\\b"
  else if c.toNat < 0x20 then "\\u" ++ hexDigits 4 c.toNat
  else String.singleton c

def stringText (s : String) : String :=
  "\"" ++ String.join (s.toList.map escape) ++ "\""

def floatText : Binary64 → String
  | .infinity negative => Decimal.signText negative ++ "Infinity"
  | .nan => "NaN"
  | f => f.text

def scalarText : Scalar → String
  | .null => "null"
  | .bool b => if b then "true" else "false"
  | .int n => Numeral.write n
  | .float f => floatText f
  | .text s => stringText s
  | .time t => stringText t.written

/-- A key as text. One that is no text is written as a text of what it would be as a value. -/
def keyText : Scalar → String
  | .text s => stringText s
  | .time t => stringText t.written
  | s => stringText (scalarText s)

/-- What separates the parts of a list or object. -/
structure Layout where
  /-- Stands behind the opening bracket and behind every comma, for parts at a depth. -/
  lineBreak : (depth : Nat) → String
  /-- Stands behind a comma in front of the line break. -/
  comma : String
  /-- Stands between a key and its value. -/
  colon : String

namespace Layout

/-- Everything on one line, with a space behind commas and colons. -/
def compact : Layout := ⟨fun _ => "", ", ", ": "⟩

/-- One part a line, indented by a number of spaces for each depth. -/
def indented (width : Nat) : Layout :=
  ⟨fun depth => "\n" ++ String.ofList (List.replicate (width * depth) ' '), ",", ": "⟩

end Layout

mutual

/-- The text of a document whose parts are at depth `depth + 1`. A collection is not written again
inside itself. -/
def render (layout : Layout) (depth : Nat) : Document → String
  | .list [] => "[]"
  | .list (item :: rest) =>
    "[" ++ layout.lineBreak (depth + 1) ++ render layout (depth + 1) item ++
      renderItems layout (depth + 1) rest ++ layout.lineBreak depth ++ "]"
  | .object [] => "\x7b\x7d"
  | .object ((key, value) :: rest) =>
    "\x7b" ++ layout.lineBreak (depth + 1) ++ keyText key ++ layout.colon ++
      render layout (depth + 1) value ++ renderEntries layout (depth + 1) rest ++
      layout.lineBreak depth ++ "\x7d"
  | .scalar s => scalarText s
  | .knot _ d => render layout depth d
  | .again _ => "null"

/-- The items behind the first one. -/
def renderItems (layout : Layout) (depth : Nat) : List Document → String
  | [] => ""
  | item :: rest =>
    layout.comma ++ layout.lineBreak depth ++ render layout depth item ++
      renderItems layout depth rest

/-- The entries behind the first one. -/
def renderEntries (layout : Layout) (depth : Nat) : List (Scalar × Document) → String
  | [] => ""
  | (key, value) :: rest =>
    layout.comma ++ layout.lineBreak depth ++ keyText key ++ layout.colon ++
      render layout depth value ++ renderEntries layout depth rest

end

/-- A document on one line. -/
def compact (d : Document) : String :=
  render .compact 0 d

/-- A document with one part a line. -/
def indented (width : Nat) (d : Document) : String :=
  render (.indented width) 0 d

end DhallSyntax.Json
