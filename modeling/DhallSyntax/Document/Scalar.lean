import DhallSyntax.Document.Timestamp
import DhallSyntax.Entries
import DhallSyntax.Number.Shortest
import DhallSyntax.Text.Quoted

/-!
Scalars: the values without parts. They are the leaves of documents and the keys of their objects,
where numbers are compared by value.
-/

namespace DhallSyntax

inductive Scalar where
  | null
  | bool (value : Bool)
  | int (value : Int)
  | float (value : Binary64)
  | text (value : String)
  | time (value : Timestamp)
deriving DecidableEq, Inhabited, Repr

/-- A text stands for the scalar that it is. -/
instance : Coe String Scalar := ⟨.text⟩

namespace Scalar

/-! Keys -/

/-- The whole number that a scalar is equal to. Truth values count as one and zero. -/
def whole? : Scalar → Option Int
  | bool b => some (if b then 1 else 0)
  | int n => some n
  | float f => f.whole?
  | _ => none

/-- Whether two scalars are the same key. -/
def sameKey (a b : Scalar) : Bool :=
  match a.whole?, b.whole? with
  | some m, some n => m == n
  | none, none =>
    match a, b with
    | time s, time t => s.same t
    | a, b => a == b
  | _, _ => false

/-- Entries without repeated keys. -/
def distinct {α : Type} (entries : List (Scalar × α)) : List (Scalar × α) :=
  Entries.distinct sameKey entries

/-! Showing -/

def wordFor : Bool → String
  | true => "True"
  | false => "False"

/-- A scalar as messages show it. There is no such text for an integer that has too many digits. -/
def shown? : Scalar → Option String
  | null => some "None"
  | bool b => some (wordFor b)
  | int n =>
    if (Numeral.digitsOf n.natAbs).length ≤ Numeral.conversionLimit then some (Numeral.write n)
    else none
  | float f => some f.text
  | text s => some (quoted s)
  | time t => some t.shown

/-- A scalar as text: texts and times stand for themselves, all else is shown. -/
def plainText? : Scalar → Option String
  | text s => some s
  | time t => some t.written
  | s => s.shown?

end Scalar

end DhallSyntax
