import DhallSyntax.Yaml.Implicit
import DhallSyntax.Yaml.Token

/-!
The nodes that the tokens of a YAML text stand for. Every node has its tag; an alias is the node of
its anchor. Since a collection may so be inside itself, collections stand in a graph, and a node
that is one of them is its index there.
-/

namespace DhallSyntax.Yaml

/-- What a node is, apart from its text or parts. -/
inductive Tag where
  | scalar (type : ScalarType)
  | collection (shape : Shape)
  | unknown
deriving DecidableEq, Repr

namespace Tag

/-- What the names of the usual tags begin with. -/
def common : String := "tag:yaml.org,2002:"

/-- The tags that have a name, behind its common beginning. -/
def named : List (String × Tag) :=
  [("null", scalar .null), ("bool", scalar .bool), ("int", scalar .int), ("float", scalar .float),
   ("timestamp", scalar .timestamp), ("str", scalar .text), ("merge", scalar .merge),
   ("value", scalar .value), ("seq", collection .list), ("map", collection .mapping)]

def ofName (name : String) : Tag :=
  ((named.find? fun entry => common ++ entry.1 == name).map Prod.snd).getD unknown

end Tag

inductive Node where
  | scalar (tag : Tag) (text : String)
  | collection (index : Nat)
deriving DecidableEq, Repr

/-- What a collection holds. -/
inductive Content where
  | items (nodes : List Node)
  | entries (pairs : List (Node × Node))
  /-- It is a text, which only its tag takes for a collection. -/
  | text
deriving Repr

structure Collection where
  tag : Tag
  content : Content
deriving Repr

/-- The collections of a document. -/
abbrev Graph := Array Collection

namespace Node

/-- The node where nothing is written. -/
def empty : Node := scalar (.scalar .null) ""

/-- How many collections may be inside each other. -/
def depthLimit : Nat := 800

/-! Reading tokens -/

/-- The tokens to come, and what is known of the document so far. -/
structure Source where
  tokens : List Token
  /-- What the handles of tags stand for. -/
  handles : List (String × String)
  /-- The anchors so far. That of a collection is there from its beginning on. -/
  anchors : List (String × Node)
  graph : Graph

abbrev Build := StateT Source (Except Error)

def fail {α : Type} : Build α := throw .malformed

/-- The next token, which stays. -/
def peek : Build Token := do
  match (← get).tokens with
  | .fault cause :: _ => throw cause
  | t :: _ => return t
  | [] => return .textEnd

def drop : Build Unit := modify fun s => { s with tokens := s.tokens.tail }

/-- Drops the next token if it is a given one. -/
def accept (t : Token) : Build Bool := do
  if (← peek) = t then
    drop
    return true
  else return false

/-- The tag and the anchor in front of a node. -/
structure Marks where
  tag : Option String
  anchor : Option String

def anchor? : Build (Option String) := do
  match ← peek with
  | .anchor name => drop; return some name
  | _ => return none

/-- A tag with its handle replaced. -/
def fullTag (written : WrittenTag) : Build String := do
  match written.handle with
  | none => return written.suffix
  | some handle =>
    match (← get).handles.lookup handle with
    | some meaning => return meaning ++ written.suffix
    | none => fail

def tag? : Build (Option String) := do
  match ← peek with
  | .tag written => drop; return some (← fullTag written)
  | _ => return none

/-- An anchor and a tag in either order, each at most once. -/
def marks : Build Marks := do
  match ← anchor? with
  | some name => return ⟨← tag?, some name⟩
  | none =>
    let tag ← tag?
    if tag.isSome then return ⟨tag, ← anchor?⟩ else return ⟨none, none⟩

/-- Whether no tag says what a node is. -/
def Marks.isOpen (m : Marks) : Bool := m.tag.all (· == "!")

def scalarTag (m : Marks) (isPlain : Bool) (text : String) : Tag :=
  match m.tag with
  | some name => if name == "!" then .scalar (.ofPlain text.toList) else .ofName name
  | none => .scalar (if isPlain then .ofPlain text.toList else .text)

def collectionTag (m : Marks) (shape : Shape) : Tag :=
  if m.isOpen then .collection shape else (m.tag.map Tag.ofName).getD .unknown

/-- Sets the node of an anchor. -/
def define (name : Option String) (node : Node) : Build Unit :=
  match name with
  | some name => modify fun s => { s with anchors := (name, node) :: s.anchors }
  | none => return

/-- The node of an anchor. -/
def ofAlias (name : String) : Build Node := do
  match (← get).anchors.lookup name with
  | some node => return node
  | none => fail

/-- Adds a collection to the graph. -/
def add (c : Collection) : Build Node := do
  let index := (← get).graph.size
  modify fun s => { s with graph := s.graph.push c }
  return .collection index

/-- Sets a collection that was added before its content was known. -/
def fill (node : Node) (c : Collection) : Build Unit :=
  match node with
  | .collection index => modify fun s => { s with graph := s.graph.setIfInBounds index c }
  | .scalar _ _ => return

/-- A scalar, unless its tag takes it for a collection. -/
def ofScalar (tag : Tag) (text : String) : Build Node :=
  match tag with
  | .collection _ => add ⟨tag, .text⟩
  | _ => return .scalar tag text

/-- Which collections may be a node. -/
inductive Place where
  | flow
  | block
  /-- Also a list whose dashes are not indented. -/
  | entry
deriving DecidableEq, Repr

section
variable (node : Place → Build Node)

/-- A node, unless one of some tokens comes. -/
def optional (place : Place) (ends : List Token) : Build Node := do
  if (← peek) ∈ ends then return empty else node place

/-- The items of a list, each behind a dash. Their number is bounded by that of the tokens. -/
def dashedItems (ends : List Token) : (bound : List Token) → Build (List Node)
  | [] => return []
  | _ :: bound => do
    if ← accept .item then
      let first ← optional node .block (.item :: ends)
      return first :: (← dashedItems ends bound)
    else return []

/-- A value behind its colon, if there is one. -/
def valueOr (place : Place) (ends : List Token) : Build Node := do
  if ← accept .value then optional node place ends else return empty

/-- The entries of a mapping in a block. -/
def blockEntries : (bound : List Token) → Build (List (Node × Node))
  | [] => return []
  | _ :: bound => do
    if ← accept .key then
      let ends := [.key, .value, .blockEnd]
      let key ← optional node .entry ends
      let value ← valueOr node .entry ends
      return (key, value) :: (← blockEntries bound)
    else return []

/-- A key and a value behind a question mark or for a colon in a flow collection that ends with
a token. -/
def flowPair (ending : Token) : Build (Node × Node) := do
  let key ← optional node .flow [.value, .separator, ending]
  return (key, ← valueOr node .flow [.separator, ending])

/-- The items of a list in brackets. An item may be a single key with its value. -/
def flowItems : (bound : List Token) → (isFirst : Bool) → Build (List Node)
  | [], _ => fail
  | _ :: bound, isFirst => do
    if ← accept (.flowEnd .list) then return []
    unless isFirst do
      unless ← accept .separator do fail
    if ← accept .key then
      let pair ← flowPair node (.flowEnd .list)
      let single ← add ⟨.collection .mapping, .entries [pair]⟩
      return single :: (← flowItems bound false)
    else if ← accept (.flowEnd .list) then return []
    else
      let item ← node .flow
      return item :: (← flowItems bound false)

/-- The entries of a mapping in braces. A key may stand without a value. -/
def flowEntries : (bound : List Token) → (isFirst : Bool) → Build (List (Node × Node))
  | [], _ => fail
  | _ :: bound, isFirst => do
    if ← accept (.flowEnd .mapping) then return []
    unless isFirst do
      unless ← accept .separator do fail
    if ← accept .key then
      let pair ← flowPair node (.flowEnd .mapping)
      return pair :: (← flowEntries bound false)
    else if ← accept (.flowEnd .mapping) then return []
    else
      let key ← node .flow
      return (key, empty) :: (← flowEntries bound false)

/-- A collection from behind the token that opens it. -/
def collectionBehind (m : Marks) (opening : Token) : Build Collection := do
  let bound := (← get).tokens
  match opening with
  | .flowStart .list => return ⟨collectionTag m .list, .items (← flowItems node bound true)⟩
  | .flowStart .mapping =>
    return ⟨collectionTag m .mapping, .entries (← flowEntries node bound true)⟩
  | .blockStart .list =>
    let items ← dashedItems node [.blockEnd] bound
    unless ← accept .blockEnd do fail
    return ⟨collectionTag m .list, .items items⟩
  | .blockStart .mapping =>
    let entries ← blockEntries node bound
    unless ← accept .blockEnd do fail
    return ⟨collectionTag m .mapping, .entries entries⟩
  | _ =>
    return ⟨collectionTag m .list, .items (← dashedItems node [.key, .value, .blockEnd] bound)⟩

end

/-- How a node goes on behind its marks. -/
inductive Opening where
  | scalar (isPlain : Bool) (text : String)
  | collection (opening : Token)
  | nothing

/-- Takes the token that a node begins with. A dash that is not indented stays. -/
def opening (place : Place) : Build Opening := do
  match ← peek with
  | .item => if place = .entry then return .collection .item else return .nothing
  | .scalar isPlain text => drop; return .scalar isPlain text
  | .flowStart shape => drop; return .collection (.flowStart shape)
  | .blockStart shape =>
    if place = .flow then return .nothing
    drop
    return .collection (.blockStart shape)
  | _ => return .nothing

/-- A node with at most `depth` collections inside each other. -/
def within : (depth : Nat) → Place → Build Node
  | depth, place => do
    if let .alias name ← peek then
      drop
      return ← ofAlias name
    let m ← marks
    let opening ← opening place
    let known := (← get).anchors
    if m.anchor.any fun name => (known.lookup name).isSome then fail
    match opening with
    | .scalar isPlain text =>
      let found ← ofScalar (scalarTag m isPlain text) text
      define m.anchor found
      return found
    | .collection opening =>
      match depth with
      | 0 => throw .tooDeep
      | depth + 1 =>
        let found ← add ⟨.unknown, .text⟩
        define m.anchor found
        fill found (← collectionBehind (within depth) m opening)
        return found
    | .nothing =>
      if m.tag.isNone && m.anchor.isNone then fail
      let found ← ofScalar (scalarTag m true "") ""
      define m.anchor found
      return found

/-! Documents -/

/-- The handles that need no directive. -/
def commonHandles : List (String × String) := [("!", "!"), ("!!", Tag.common)]

/-- Reads the directives in front of a document; `versioned` if one gave the version already. -/
def directives : (bound : List Token) → (versioned : Bool) → Build Unit
  | [], _ => return
  | _ :: bound, versioned => do
    match ← peek with
    | .directive (.version major _) =>
      if versioned || major != 1 then fail
      drop
      directives bound true
    | .directive (.handle name meaning) =>
      if ((← get).handles.lookup name).isSome then fail
      drop
      modify fun s => { s with handles := (name, meaning) :: s.handles }
      directives bound versioned
    | .directive .other =>
      drop
      directives bound versioned
    | _ => return

def dropEnds : (bound : List Token) → Build Unit
  | [] => return
  | _ :: bound => do
    if ← accept .documentEnd then dropEnds bound

/-- The content of a document that begins with its mark. -/
def markedDocument (depth : Nat) : Build Node := do
  directives (← get).tokens false
  modify fun s => { s with handles := s.handles ++ commonHandles }
  unless ← accept .documentStart do fail
  match ← peek with
  | .directive _ | .documentStart | .documentEnd | .textEnd => return empty
  | _ => within depth .block

/-- The only document of a text, if it has one. -/
def document (depth : Nat) : Build (Option Node) := do
  let found ←
    match ← peek with
    | .textEnd => pure none
    | .directive _ | .documentStart => some <$> markedDocument depth
    | _ =>
      modify fun s => { s with handles := commonHandles }
      some <$> within depth .block
  dropEnds (← get).tokens
  unless (← peek) = .textEnd do fail
  return found

/-- The node of the only document that tokens stand for, if they stand for one, and the graph that
it is in. -/
def ofTokens (depth : Nat) (tokens : List Token) : Except Error (Option Node × Graph) := do
  let (node, s) ← (document depth).run ⟨tokens, [], [], #[]⟩
  return (node, s.graph)

end Node

end DhallSyntax.Yaml
