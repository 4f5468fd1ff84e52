import DhallSyntax.Operator

/-!
Chains of operands and operators. A pending chain keeps what has been read so far; an operator
that binds no tighter than those before it first closes them, so that all operators associate to
the left.
-/

namespace DhallSyntax

/-- The chain read so far: the last operand, and before it operands with the operator behind each,
the latest first. Every operator thus has its left operand. -/
structure Pending (α : Type) where
  before : List (α × Operator)
  last : α

namespace Pending

variable {α : Type}

def start (operand : α) : Pending α := ⟨[], operand⟩

/-- Closes the pending operators that bind at least as tightly as a rank. -/
def closeFrom (build : Operator → α → α → α) (rank : Nat) :
    List (α × Operator) → α → Pending α
  | [], last => ⟨[], last⟩
  | (left, op) :: before, last =>
    if rank ≤ op.precedence then closeFrom build rank before (build op left last)
    else ⟨(left, op) :: before, last⟩

/-- Reads on: an operator and its right operand. -/
def push (build : Operator → α → α → α) (chain : Pending α) (op : Operator) (right : α) :
    Pending α :=
  let closed := closeFrom build op.precedence chain.before chain.last
  ⟨(closed.last, op) :: closed.before, right⟩

/-- Closes all operators. -/
def close (build : Operator → α → α → α) (chain : Pending α) : α :=
  (closeFrom build 0 chain.before chain.last).last

end Pending

end DhallSyntax
