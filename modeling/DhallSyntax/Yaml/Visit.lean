import DhallSyntax.Yaml.Merge
import DhallSyntax.Yaml.Value

/-!
The collections of a YAML document with the values of their scalars. They are visited in the order
of their distance from the root, each of them once, and the first fault that is met counts.
-/

namespace DhallSyntax.Yaml

/-- A part of a collection: a scalar, or the index of another collection. -/
inductive Part where
  | scalar (value : Scalar)
  | collection (index : Nat)

/-- A collection with something for each of its parts. Keys may be repeated. -/
inductive Shallow (α : Type) where
  | list (items : List α)
  | object (entries : List (Scalar × α))

namespace Shallow

/-- The parts, without the keys. -/
def parts {α : Type} : Shallow α → List α
  | list items => items
  | object entries => entries.map Prod.snd

def map {α β : Type} (f : α → β) : Shallow α → Shallow β
  | list items => .list (items.map f)
  | object entries => .object (entries.map fun (key, part) => (key, f part))

/-- A collection without repeated keys. -/
def distinct {α : Type} : Shallow α → Shallow α
  | list items => .list items
  | object entries => .object (Scalar.distinct entries)

/-- The indices of the collections inside, in their order. -/
def inner (c : Shallow Part) : List Nat :=
  c.parts.filterMap fun
    | .collection index => some index
    | .scalar _ => none

end Shallow

namespace Graph

/-- The part that a node is. A collection has to have the tag of one; whether it is the right one is
seen when it is visited. -/
def part (graph : Graph) (node : Node) : Except Error Part :=
  match node, graph.tagOf node with
  | .scalar _ text, .scalar type => (scalarValue type text).map .scalar
  | .collection index, .collection _ => .ok (.collection index)
  | _, _ => .error .malformed

/-- The key that a node is. Collections are no keys. -/
def key : Node → Except Error Scalar
  | .scalar (.scalar .value) text => .ok (.text text)
  | .scalar (.scalar type) text => scalarValue type text
  | _ => .error .malformed

def entry (graph : Graph) (pair : Node × Node) : Except Error (Scalar × Part) := do
  let key ← key pair.1
  return (key, ← graph.part pair.2)

/-- The parts of a collection whose tag and content agree. -/
def shallow (graph : Graph) (node : Node) : Except Error (Shallow Part) :=
  match graph.tagOf node, graph.contentOf node with
  | .collection .list, .items nodes => return .list (← nodes.mapM graph.part)
  | .collection .mapping, .entries pairs => return .object (← pairs.mapM graph.entry)
  | _, _ => .error .malformed

/-! Visits -/

/-- The collections that were visited, and those still to be visited. -/
structure Visit where
  graph : Graph
  visited : Array (Option (Shallow Part))
  /-- Which collections were put among those to be visited at some time. -/
  noted : Array Bool
  ahead : List Nat
  /-- The collections behind those in `ahead`, the last one first. -/
  behind : List Nat

namespace Visit

/-- Puts a collection last, unless it was noted before. -/
def note (v : Visit) (index : Nat) : Visit :=
  if v.noted.getD index true then v
  else { v with noted := v.noted.setIfInBounds index true, behind := index :: v.behind }

/-- Visits all collections that can be reached. Each of the `fuel` steps visits one. -/
def run (merges : Nat) : (fuel : Nat) → Visit → Except Error (Array (Option (Shallow Part)))
  | 0, v => return v.visited
  | fuel + 1, v =>
    let (ahead, behind) :=
      if v.ahead.isEmpty then (v.behind.reverse, []) else (v.ahead, v.behind)
    match ahead with
    | [] => return v.visited
    | index :: ahead => do
      let graph ← v.graph.merge merges (.collection index)
      let found ← graph.shallow (.collection index)
      let visited := v.visited.setIfInBounds index (some found)
      run merges fuel (found.inner.foldl note ⟨graph, visited, v.noted, ahead, behind⟩)

end Visit

/-- The collections that can be reached from a node, with their parts. -/
def visitFrom (graph : Graph) (root : Part) : Except Error (Array (Option (Shallow Part))) :=
  let start : Visit :=
    { graph, visited := .replicate graph.size none, noted := .replicate graph.size false,
      ahead := [], behind := [] }
  match root with
  | .scalar _ => .ok start.visited
  | .collection index => (start.note index).run graph.mergeCount graph.size

end Graph

end DhallSyntax.Yaml
