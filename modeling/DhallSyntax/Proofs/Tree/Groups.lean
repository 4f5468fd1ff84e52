import DhallSyntax.Proofs.Reading.Levels
import DhallSyntax.Proofs.Tree.Rendering

/-!
Expressions in parentheses. A text that is read as a tree wherever the source ends behind it or a
parenthesis closes it (`Writes`) is read as that tree on every level once it stands in parentheses.
The forms that are made of such groups are read back here, one lemma a form.
-/

namespace DhallSyntax

open Grammar
open Rendering (grouped)
open Whitespace (Tight)

/-- The source ends, or a parenthesis closes what precedes. -/
def Closes (t : List Char) : Prop := t = [] ∨ ∃ r, t = ' ' :: ')' :: r

theorem closes_parenthesis (r : List Char) : Closes (' ' :: ')' :: r) := .inr ⟨r, rfl⟩

theorem Closes.ends {t : List Char} (h : Closes t) : EndsExpression t := by
  obtain rfl | ⟨r, rfl⟩ := h
  · exact endsExpression_nil
  · exact endsExpression_closing (by decide) r

/-- A text that is read as a tree if the source ends behind it or a parenthesis closes it. -/
structure Writes (cs : List Char) (e : Expr) : Prop where
  tight : ∀ t, Tight (cs ++ t)
  read : ∀ t, Closes t → Rule.expression.read (cs ++ t) = .value e t

theorem grouped_append (cs t : List Char) :
    grouped cs ++ t = '(' :: ' ' :: (cs ++ ' ' :: ')' :: t) := by
  simp [grouped]

theorem tight_grouped (cs t : List Char) : Tight (grouped cs ++ t) := rfl

/-- Only an expression in parentheses begins with one. -/
theorem read_primitiveExpression_parenthesis (r : List Char) :
    Rule.primitiveExpression.read ('(' :: r) =
      (parenthesized.read ('(' :: r)).orElse .mismatch := by
  have hmisses : ∀ rule : Rule, rule.first '(' = false → rule.read ('(' :: r) = .mismatch :=
    fun rule h => rule.read_of_first h
  rw [read_primitiveExpression, hmisses .doubleLiteral rfl, hmisses .naturalLiteral rfl,
    hmisses .integerLiteral rfl, hmisses .textLiteral rfl, hmisses .recordExpression rfl,
    hmisses .unionType rfl, hmisses .listLiteral rfl, hmisses .identifier rfl]
  rfl

namespace Writes

variable {cs t : List Char} {e : Expr} (h : Writes cs e)
include h

theorem read_primitive (t : List Char) :
    Rule.primitiveExpression.read (grouped cs ++ t) = .value e t := by
  have hcomplete := read_completeExpression (h.tight _) (h.read _ (closes_parenthesis t))
    (by rfl : Tight (')' :: t))
  rw [grouped_append, read_primitiveExpression_parenthesis]
  simp [parenthesized, readBy_expect, hcomplete]

theorem read_import (ht : EndsOperand t) :
    Rule.importExpression.read (grouped cs ++ t) = .value e t :=
  read_importExpression_selector (plainStart_of_first rfl).noImport
    (read_selectorExpression (h.read_primitive t) ht)

theorem read_application (ht : EndsApplication t) :
    Rule.applicationExpression.read (grouped cs ++ t) = .value e t :=
  read_application_plain (plainStart_of_first rfl) (h.read_primitive t) ht

theorem read_operator (ht : EndsOperation t) :
    Rule.operatorExpression.read (grouped cs ++ t) = .value e t :=
  read_operatorExpression (h.read_application ht.application) ht

theorem read_expression (ht : EndsExpression t) :
    Rule.expression.read (grouped cs ++ t) = .value e t :=
  read_expression_plain (plainStart_of_first rfl) (h.read_primitive t) ht

end Writes

end DhallSyntax
