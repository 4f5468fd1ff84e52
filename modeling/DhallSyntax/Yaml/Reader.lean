import DhallSyntax.Document.Basic
import DhallSyntax.Yaml.Lexer
import DhallSyntax.Yaml.Visit

/-!
YAML texts as documents. A collection that leads back to itself becomes a knot.
-/

namespace DhallSyntax.Yaml

/-- A document inside some collections, and which of these it leads back to. -/
structure Looped where
  document : Document
  knots : List Nat

namespace Shallow

/-- The document of a collection, from the documents of its parts. -/
def document : Shallow Looped → Document
  | list items => .list (items.map Looped.document)
  | object entries => .object (entries.map fun (key, part) => (key, part.document))

/-- The collections that the parts of a collection lead back to. -/
def knots (c : Shallow Looped) : List Nat := (c.parts.flatMap Looped.knots).eraseDups

end Shallow

/-- The document of a part inside some collections, of which there are at most `fuel` more. -/
def documentOf (collections : Array (Option (Shallow Part))) :
    (fuel : Nat) → (around : List Nat) → Part → Looped
  | _, _, .scalar s => ⟨.scalar s, []⟩
  | 0, _, .collection index => ⟨.again index, [index]⟩
  | fuel + 1, around, .collection index =>
    if around.contains index then ⟨.again index, [index]⟩
    else
      match (collections[index]?).join with
      | none => ⟨.null, []⟩
      | some c =>
        let found := c.distinct.map (documentOf collections fuel (index :: around))
        if found.knots.isEmpty then ⟨found.document, []⟩
        else ⟨.knot index found.document, found.knots.filter (· != index)⟩

/-- Reads the document of a text. An empty text has none. -/
def read (text : String) : Except Error Document := do
  match ← Node.ofTokens Node.depthLimit (Token.ofText text.toList) with
  | (none, _) => return .null
  | (some node, graph) =>
    let root ← graph.part node
    let collections ← graph.visitFrom root
    return (documentOf collections collections.size [] root).document

end DhallSyntax.Yaml
