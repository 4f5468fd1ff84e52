import DhallSyntax.Document.Scalar

/-!
Documents: the values that JSON and YAML texts stand for. The entries of an object keep their
order, and their keys may be any scalars. A collection may be inside itself: there it is met again
under its label, and `opened` shows its parts as documents of their own.
-/

namespace DhallSyntax

inductive Document where
  | scalar (value : Scalar)
  | list (items : List Document)
  | object (entries : List (Scalar × Document))
  /-- A list or object that leads back to itself. Its label tells it from others. -/
  | knot (label : Nat) (collection : Document)
  /-- The knot of a label, which this stands inside of. -/
  | again (label : Nat)
deriving Inhabited, Repr

namespace Document

@[match_pattern] abbrev null : Document := scalar .null

@[match_pattern] abbrev bool (value : Bool) : Document := scalar (.bool value)

@[match_pattern] abbrev int (value : Int) : Document := scalar (.int value)

@[match_pattern] abbrev float (value : Binary64) : Document := scalar (.float value)

@[match_pattern] abbrev text (value : String) : Document := scalar (.text value)

/-- The value of a key, if there is an entry for it. -/
def lookup (key : String) (entries : List (Scalar × Document)) : Option Document :=
  (entries.find? fun entry => entry.1 == .text key).map Prod.snd

/-! Knots -/

mutual

/-- Puts a knot wherever its label is met again. -/
def tie (label : Nat) (whole : Document) : Document → Document
  | .scalar s => .scalar s
  | .list items => .list (tieItems label whole items)
  | .object entries => .object (tieEntries label whole entries)
  | .knot l d => if l = label then .knot l d else .knot l (tie label whole d)
  | .again l => if l = label then whole else .again l

def tieItems (label : Nat) (whole : Document) : List Document → List Document
  | [] => []
  | item :: rest => tie label whole item :: tieItems label whole rest

def tieEntries (label : Nat) (whole : Document) :
    List (Scalar × Document) → List (Scalar × Document)
  | [] => []
  | (key, value) :: rest => (key, tie label whole value) :: tieEntries label whole rest

end

/-- A document whose parts stand for themselves, wherever they are used. -/
def opened : Document → Document
  | .knot label d => tie label (.knot label d) d
  | d => d

mutual

/-- Whether a document has a knot, and so no end. -/
def isEndless : Document → Bool
  | .scalar _ => false
  | .list items => anyEndless items
  | .object entries => anyEndlessEntry entries
  | .knot _ _ | .again _ => true

def anyEndless : List Document → Bool
  | [] => false
  | item :: rest => isEndless item || anyEndless rest

def anyEndlessEntry : List (Scalar × Document) → Bool
  | [] => false
  | (_, value) :: rest => isEndless value || anyEndlessEntry rest

end

/-! Showing -/

/-- What is shown of a collection inside itself. -/
def elision : Document → String
  | .list _ => "[...]"
  | _ => "\x7b...\x7d"

mutual

/-- A document on one line, inside some knots whose elisions are given. -/
def shownWithin? (knots : List (Nat × String)) : Document → Option String
  | .scalar s => s.shown?
  | .list items => (shownItems? knots items).map fun parts => "[" ++ ", ".intercalate parts ++ "]"
  | .object entries =>
    (shownEntries? knots entries).map fun parts => "\x7b" ++ ", ".intercalate parts ++ "\x7d"
  | .knot label d =>
    match knots.lookup label with
    | some mark => some mark
    | none => shownWithin? ((label, d.elision) :: knots) d
  | .again label => some ((knots.lookup label).getD "...")

def shownItems? (knots : List (Nat × String)) : List Document → Option (List String)
  | [] => some []
  | item :: rest => do return (← shownWithin? knots item) :: (← shownItems? knots rest)

def shownEntries? (knots : List (Nat × String)) :
    List (Scalar × Document) → Option (List String)
  | [] => some []
  | (key, value) :: rest => do
    let shownKey ← key.shown?
    return (shownKey ++ ": " ++ (← shownWithin? knots value)) :: (← shownEntries? knots rest)

end

/-- A document on one line, as messages show it. There is no such line for an integer that has too
many digits. -/
def shown? (d : Document) : Option String := shownWithin? [] d

/-- A document as text: texts and times stand for themselves, all else is shown. -/
def plainText? : Document → Option String
  | .scalar s => s.plainText?
  | d => d.shown?

end Document

end DhallSyntax
