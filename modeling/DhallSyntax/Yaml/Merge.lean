import DhallSyntax.Yaml.Node

/-!
Merging: a mapping takes over the entries of other mappings that stand behind a merge key. They
come before its own entries, so that those win.
-/

namespace DhallSyntax.Yaml.Graph

/-- The tag of a node. -/
def tagOf (graph : Graph) : Node → Tag
  | .scalar tag _ => tag
  | .collection index => graph[index]?.elim .unknown Collection.tag

def contentOf (graph : Graph) : Node → Content
  | .scalar _ _ => .text
  | .collection index => graph[index]?.elim .text Collection.content

/-- The entries of a mapping, and none of anything else. -/
def entriesOf (graph : Graph) (node : Node) : List (Node × Node) :=
  match graph.contentOf node with
  | .entries pairs => pairs
  | _ => []

def setEntries (graph : Graph) (node : Node) (pairs : List (Node × Node)) : Graph :=
  match node with
  | .collection index => graph.modify index fun c => { c with content := .entries pairs }
  | .scalar _ _ => graph

/-- Whether the value of a key is to be merged into the mapping. -/
def isMergeKey (graph : Graph) (key : Node) : Bool := graph.tagOf key = .scalar .merge

/-- How many entries are to be merged into mappings. -/
def mergeCount (graph : Graph) : Nat :=
  graph.toList.foldl (fun count c =>
    match c.content with
    | .entries pairs => count + pairs.countP fun pair => graph.isMergeKey pair.1
    | _ => count) 0

abbrev Merging := StateT Graph (Except Error)

/-- The entries of a mapping that is to be merged, which `merge` brings to its final form. -/
def mergedEntries (merge : Node → Merging Unit) (node : Node) : Merging (List (Node × Node)) := do
  match (← get).contentOf node with
  | .entries _ =>
    merge node
    return (← get).entriesOf node
  | _ => throw .malformed

/-- The entries behind a merge key: those of a mapping, or of a list of mappings, of which the last
comes first. -/
def sourceEntries (merge : Node → Merging Unit) (source : Node) :
    Merging (List (Node × Node)) := do
  match (← get).contentOf source with
  | .items nodes => return (← nodes.mapM (mergedEntries merge)).reverse.flatten
  | _ => mergedEntries merge source

/-- Brings a mapping to its final form. An entry behind a merge key is dropped before its source is
merged, so `fuel` need not be more than the number of these entries. Those before `start` are done,
and `merged` has what was found for them. -/
def mergeFrom : (fuel : Nat) → (start : Nat) → (merged : List (Node × Node)) → Node → Merging Unit
  | fuel, start, merged, node => do
    let graph ← get
    let entries := graph.entriesOf node
    let position := start + (entries.drop start).findIdx fun pair => graph.isMergeKey pair.1
    match fuel, entries[position]? with
    | fuel + 1, some (_, source) =>
      set (graph.setEntries node (entries.eraseIdx position))
      let found ← sourceEntries (mergeFrom fuel 0 []) source
      mergeFrom fuel position (merged ++ found) node
    | _, _ => unless merged.isEmpty do set (graph.setEntries node (merged ++ entries))

/-- A graph in which a mapping has its final form. -/
def merge (graph : Graph) (fuel : Nat) (node : Node) : Except Error Graph :=
  return (← (mergeFrom fuel 0 [] node).run graph).2

end DhallSyntax.Yaml.Graph
