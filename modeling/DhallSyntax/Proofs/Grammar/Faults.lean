import DhallSyntax.Grammar.Expression

/-!
The faults that the rules of the grammar can report by themselves. Main
statements:

* `body_abortsOnly`: all of them are in the text, no rule reports that anything is too deep;
* `body_defectsOnly`: doubles alone report numbers out of bounds.
-/

namespace DhallSyntax

/-- Whether a fault is in the text, and not in how deep the parse has got. -/
def Fault.isTextual : Fault → Bool
  | .defect (.tooDeep _) | .stackExhausted => false
  | _ => true

/-- Whether a fault is a defect of the text, and not a number beyond the bounds of decimals. -/
def Fault.isDefect : Fault → Bool
  | .defect (.tooDeep _) | .stackExhausted | .numberRange => false
  | _ => true

theorem Fault.isTextual_of_isDefect {fault : Fault} (h : fault.isDefect = true) :
    fault.isTextual = true := by
  cases fault with
  | defect d => cases d <;> trivial
  | stackExhausted => cases h
  | numberRange => rfl

namespace Grammar

variable {α β σ : Type} {P : Deed → Prop}

/-- What a part of a grammar may do besides looking at the text: call a rule, count as a level of
nesting, or end the parse. -/
inductive Deed where
  | call (rule : Rule)
  | nested
  | abort (fault : Fault)

/-- Everything that a part of a grammar may do itself has a property. -/
def DoesOnly (P : Deed → Prop) {α : Type} : Grammar α → Prop
  | .bind first next => first.DoesOnly P ∧ ∀ b, (next b).DoesOnly P
  | .orElse first second => first.DoesOnly P ∧ second.DoesOnly P
  | .call rule => P (.call rule)
  | .nested body => P .nested ∧ body.DoesOnly P
  | .iterate _ step => ∀ state, (step state).DoesOnly P
  | .abort fault _ => P (.abort fault)
  | _ => True

/-- A part of a grammar that calls no rule and opens no expression. -/
abbrev CallFree (g : Grammar α) : Prop :=
  g.DoesOnly fun deed => ∃ fault, deed = .abort fault

/-- Every fault that a part of a grammar may report itself has a property. -/
abbrev AbortsOnly (P : Fault → Prop) {α : Type} (g : Grammar α) : Prop :=
  g.DoesOnly fun deed => ∀ fault, deed = .abort fault → P fault

theorem DoesOnly.mono {Q : Deed → Prop} (h : ∀ deed, P deed → Q deed) {g : Grammar α}
    (hg : g.DoesOnly P) : g.DoesOnly Q := by
  induction g with
  | bind first next ihf ihn => exact ⟨ihf hg.1, fun b => ihn b (hg.2 b)⟩
  | orElse first second ihf ihs => exact ⟨ihf hg.1, ihs hg.2⟩
  | call rule => exact h _ hg
  | nested body ih => exact ⟨h _ hg.1, ih hg.2⟩
  | iterate state step ih => exact fun state => ih state (hg state)
  | abort fault back => exact h _ hg
  | _ => trivial

theorem AbortsOnly.mono {Q Q' : Fault → Prop} (h : ∀ fault, Q fault → Q' fault) {g : Grammar α}
    (hg : g.AbortsOnly Q) : g.AbortsOnly Q' :=
  DoesOnly.mono (fun _ hd fault hf => h fault (hd fault hf)) hg

@[simp] theorem doesOnly_bind {first : Grammar β} {next : β → Grammar α} :
    (first >>= next).DoesOnly P ↔ first.DoesOnly P ∧ ∀ b, (next b).DoesOnly P := Iff.rfl

@[simp] theorem doesOnly_pure {a : α} : (Pure.pure a : Grammar α).DoesOnly P := trivial

@[simp] theorem doesOnly_value {a : α} : (Grammar.pure a).DoesOnly P := trivial

@[simp] theorem doesOnly_look {view : List Char → α} : (look view).DoesOnly P := trivial

@[simp] theorem doesOnly_accept {literal : String} : (accept literal).DoesOnly P := trivial

@[simp] theorem doesOnly_advance {count : Nat} : (advance count).DoesOnly P := trivial

@[simp] theorem doesOnly_fail {expectation : String} :
    (fail expectation : Grammar α).DoesOnly P := trivial

@[simp] theorem doesOnly_mismatch : (mismatch : Grammar α).DoesOnly P := trivial

@[simp] theorem doesOnly_call {rule : Rule} :
    @DoesOnly P (no_index rule.Result) (call rule) ↔ P (.call rule) := Iff.rfl

@[simp] theorem doesOnly_abort {fault : Fault} {back : Nat} :
    (abort fault back : Grammar α).DoesOnly P ↔ P (.abort fault) := Iff.rfl

@[simp] theorem doesOnly_orElse {first second : Grammar α} :
    (orElse first second).DoesOnly P ↔ first.DoesOnly P ∧ second.DoesOnly P := Iff.rfl

@[simp] theorem doesOnly_nested {body : Grammar α} :
    (nested body).DoesOnly P ↔ P .nested ∧ body.DoesOnly P := Iff.rfl

@[simp] theorem doesOnly_iterate {state : σ} {step : σ → Grammar (σ ⊕ α)} :
    (iterate state step).DoesOnly P ↔ ∀ state, (step state).DoesOnly P := Iff.rfl

@[simp] theorem doesOnly_ite {p : Prop} [Decidable p] {g g' : Grammar α} :
    (if p then g else g').DoesOnly P ↔ (p → g.DoesOnly P) ∧ (¬ p → g'.DoesOnly P) := by
  split <;> simp_all

@[simp] theorem doesOnly_choice {alternatives : List (Grammar α)} :
    (choice alternatives).DoesOnly P ↔ ∀ g ∈ alternatives, g.DoesOnly P := by
  induction alternatives with
  | nil => simp [choice]
  | cons g rest ih => simp [choice, ih]

@[simp] theorem doesOnly_acceptAny {literals : List String} :
    (acceptAny literals).DoesOnly P := by
  induction literals with
  | nil => simp [acceptAny]
  | cons literal rest ih => simp [acceptAny, ih]

@[simp] theorem doesOnly_expectAny {literals : List String} :
    (expectAny literals).DoesOnly P := by
  simp only [expectAny, doesOnly_bind, doesOnly_acceptAny, true_and]
  intro b
  cases b <;> simp

@[simp] theorem doesOnly_optional? {part : Grammar α} :
    (optional? part).DoesOnly P ↔ part.DoesOnly P := by
  simp [optional?]

@[simp] theorem doesOnly_foldMany {part : Grammar α} {f : σ → α → σ} {start : σ} :
    (foldMany part f start).DoesOnly P ↔ part.DoesOnly P := by
  simp only [foldMany, doesOnly_iterate, doesOnly_bind, doesOnly_optional?]
  refine ⟨fun h => (h start).1, fun h state => ⟨h, fun b => ?_⟩⟩
  cases b <;> simp

@[simp] theorem doesOnly_many {part : Grammar α} :
    (many part).DoesOnly P ↔ part.DoesOnly P := by
  simp [many]

@[simp] theorem doesOnly_expect {literal : String} : (expect literal).DoesOnly P := by
  simp [expect]

@[simp] theorem doesOnly_keyword {word : String} : (keyword word).DoesOnly P := by
  simp [keyword]

@[simp] theorem doesOnly_takeWhile {chars : CharClass} : (takeWhile chars).DoesOnly P := by
  simp [takeWhile]

@[simp] theorem doesOnly_takeWhile1 {chars : CharClass} {expected : String} :
    (takeWhile1 chars expected).DoesOnly P := by
  simp [takeWhile1]

@[simp] theorem doesOnly_takeIf {chars : CharClass} : (takeIf chars).DoesOnly P := by
  simp only [takeIf, peek, doesOnly_bind, doesOnly_look, true_and]
  intro b
  cases b <;> simp

/-! ## Literals -/

/-- The faults of the text, as a property. -/
abbrev Textual {α : Type} (g : Grammar α) : Prop := g.AbortsOnly fun fault => fault.isTextual = true

/-- The defects of the text, as a property. -/
abbrev DefectsOnly {α : Type} (g : Grammar α) : Prop :=
  g.AbortsOnly fun fault => fault.isDefect = true

theorem doesOnly_whitespace (h : P (.abort (.defect .openComment))) : whitespace.DoesOnly P := by
  simp [whitespace, h]

theorem doesOnly_whitespace1 (h : P (.abort (.defect .openComment))) :
    whitespace1.DoesOnly P := by
  simp [whitespace1, doesOnly_whitespace h]

@[simp] theorem defectsOnly_whitespace : whitespace.DefectsOnly :=
  doesOnly_whitespace (by simp [Fault.isDefect])

@[simp] theorem defectsOnly_whitespace1 : whitespace1.DefectsOnly :=
  doesOnly_whitespace1 (by simp [Fault.isDefect])

theorem doesOnly_decimal (h : P (.abort .numberRange)) (negative : Bool)
    (whole fraction : List Char) (exponent : Int) :
    (decimal negative whole fraction exponent).DoesOnly P := by
  unfold decimal
  dsimp only
  split <;> simp [h]

theorem doesOnly_doubleLiteral (h : P (.abort .numberRange)) : doubleLiteral.DoesOnly P := by
  simp only [doubleLiteral, doesOnly_bind, doesOnly_look, true_and]
  intro b
  cases b <;> simp [sign, digits, exponent, doesOnly_decimal h]

theorem textual_doubleLiteral : doubleLiteral.Textual :=
  doesOnly_doubleLiteral (by simp [Fault.isTextual])

theorem doesOnly_bareLabel : bareLabel.DoesOnly P := by
  simp only [bareLabel, peek, doesOnly_bind, doesOnly_look, true_and]
  intro b
  cases b <;> simp

theorem doesOnly_labelExcept (excluded : String → Bool) (expected : String) :
    (labelExcept excluded expected).DoesOnly P := by
  simp [labelExcept, bareLabelExcept, Grammar.quotedLabel, peek, doesOnly_bareLabel]

theorem doesOnly_builtin : builtin.DoesOnly P := by
  simp [builtin, doesOnly_bareLabel]

theorem defectsOnly_identifier : identifier.DefectsOnly := by
  simp only [identifier, doesOnly_bind, doesOnly_optional?, doesOnly_call, reduceCtorEq,
    false_implies, implies_true, true_and]
  intro b
  cases b <;> simp [variableIndex, doesOnly_builtin]

@[simp] theorem defectsOnly_completeExpression : completeExpression.DefectsOnly := by
  simp [completeExpression]

theorem defectsOnly_unicodeEscape : unicodeEscape.DefectsOnly := by
  simp [unicodeEscape, scalar, Fault.isDefect]

theorem defectsOnly_escapeSequence : escapeSequence.DefectsOnly := by
  simp only [escapeSequence, peek, doesOnly_bind, doesOnly_look, true_and]
  intro b
  cases b with
  | none => simp
  | some c =>
    dsimp only
    split <;> simp [defectsOnly_unicodeEscape]

theorem defectsOnly_doubleQuoteStep (draft : TextDraft) : (doubleQuoteStep draft).DefectsOnly := by
  simp only [doubleQuoteStep, interpolation, doesOnly_bind, doesOnly_ite, doesOnly_accept,
    doesOnly_pure, doesOnly_expect, doesOnly_takeIf, defectsOnly_completeExpression,
    defectsOnly_escapeSequence, implies_true, true_and, and_true]
  intro _ _ _ _ _ _ b
  cases b <;> simp

theorem defectsOnly_singleQuoteStep (draft : TextDraft) : (singleQuoteStep draft).DefectsOnly := by
  simp only [singleQuoteStep, interpolation, doesOnly_bind, doesOnly_ite, doesOnly_accept,
    doesOnly_pure, doesOnly_expect, doesOnly_takeIf, defectsOnly_completeExpression,
    implies_true, true_and, and_true]
  intro _ _ _ _ _ _ _ _ _ _ b
  cases b <;> simp

/-! ## Imports -/

theorem doesOnly_host : host.DoesOnly P := by
  simp only [host, doesOnly_bind, doesOnly_look, true_and]
  intro b
  cases b <;> simp [takeLength]

theorem doesOnly_pathComponent : pathComponent.DoesOnly P := by
  simp [pathComponent]

theorem doesOnly_marked (mark : String) (length : List Char → Nat) :
    (marked mark length).DoesOnly P := by
  simp [marked, takeLength]

theorem doesOnly_urlPath : urlPath.DoesOnly P := by
  simp [urlPath, doesOnly_pathComponent, pathSegment, takeLength]

theorem defectsOnly_usingClause : usingClause.DefectsOnly := by
  simp [usingClause]

theorem defectsOnly_httpImport : httpImport.DefectsOnly := by
  have hs : scheme.DefectsOnly := by simp [scheme]
  have hu : userinfo.DefectsOnly := by simp [userinfo, takeLength]
  simp only [httpImport, doesOnly_bind, doesOnly_optional?, doesOnly_expect, hs, hu,
    doesOnly_host, doesOnly_marked, doesOnly_urlPath, defectsOnly_usingClause, true_and]
  intro _ _ _ _ _ _ _ headers
  cases headers <;> simp

theorem doesOnly_bashName : bashName.DoesOnly P := by
  simp only [bashName, peek, doesOnly_bind, doesOnly_look, true_and]
  intro b
  cases b <;> simp

theorem doesOnly_quotedNameStep (name : List Char) : (quotedNameStep name).DoesOnly P := by
  simp only [quotedNameStep, peek, doesOnly_bind, doesOnly_look, doesOnly_ite,
    doesOnly_accept, doesOnly_advance, doesOnly_pure, doesOnly_takeIf, implies_true,
    true_and]
  refine fun _ _ _ => ⟨fun _ b => ?_, fun _ b => ?_⟩
  · split <;> simp
  · cases b <;> simp

theorem defectsOnly_integrityHash : integrityHash.DefectsOnly := by
  simp [integrityHash, Fault.isDefect]

/-! ## Expressions -/

theorem defectsOnly_binaryOperator : binaryOperator.DefectsOnly := by
  simp only [binaryOperator, doesOnly_bind, doesOnly_look, defectsOnly_whitespace, true_and]
  intro _ b
  cases b <;> simp

theorem defectsOnly_colon : colon.DefectsOnly := by
  simp [colon]

theorem defectsOnly_annotatedExpression : annotatedExpression.DefectsOnly := by
  simp only [annotatedExpression, doesOnly_bind, doesOnly_optional?, doesOnly_call,
    defectsOnly_colon, reduceCtorEq, false_implies, implies_true, true_and]
  intro _ b
  cases b <;> simp

theorem defectsOnly_furtherEntries {mark : String} {closing : Char} {entry : Grammar α}
    (h : entry.DefectsOnly) : (furtherEntries mark closing entry).DefectsOnly := by
  simp [furtherEntries, peek, h]

end Grammar

open Grammar

/-- All rules but that of doubles report nothing but defects. -/
theorem body_defectsOnly {rule : Rule} (h : rule ≠ .doubleLiteral) : rule.body.DefectsOnly := by
  cases rule with
  | doubleLiteral => exact absurd rfl h
  | naturalLiteral | integerLiteral => simp [Rule.body, naturalLiteral, integerLiteral, digits]
  | label | nonreservedLabel | identifier =>
    simp [Rule.body, label, nonreservedLabel, doesOnly_labelExcept, defectsOnly_identifier]
  | textLiteral | doubleQuoteLiteral | singleQuoteLiteral =>
    simp [Rule.body, textLiteral, doubleQuoteLiteral, defectsOnly_doubleQuoteStep,
      singleQuoteLiteral, defectsOnly_singleQuoteStep]
  | importClause | importHashed | importType =>
    simp [Rule.body, importClause, importMode, importHashed, defectsOnly_integrityHash, importType]
  | localImport | httpImport | envImport =>
    simp [Rule.body, localImport, anchor, doesOnly_pathComponent, defectsOnly_httpImport,
      envImport, doesOnly_bashName, doesOnly_quotedNameStep]
  | expression | lambdaExpression | ifExpression | forallExpression | arrowExpression =>
    simp [Rule.body, expression, lambdaExpression, binder, arrow, ifExpression,
      forallExpression, arrowExpression]
  | letExpression | letBinding =>
    simp [Rule.body, letExpression, letBinding, bindingType]
  | mergeExpression | emptyListExpression | toMapExpression | annotatedExpression =>
    simp [Rule.body, mergeExpression, emptyListExpression, toMapExpression, defectsOnly_colon,
      defectsOnly_annotatedExpression]
  | operatorExpression | applicationExpression | firstApplicationExpression =>
    simp [Rule.body, operatorExpression, operatorTail, defectsOnly_binaryOperator,
      applicationExpression, firstApplicationExpression, mergeApplication, someApplication,
      toMapApplication]
  | importExpression | selectorExpression | primitiveExpression =>
    simp [Rule.body, importExpression, selectorExpression, selector, projectionLabels,
      parenthesized, primitiveExpression, peek]
  | recordExpression | unionType | listLiteral =>
    simp [Rule.body, recordExpression, recordEntries, recordEntry, Grammar.unionType,
      unionAlternatives, unionAlternative, listLiteral, defectsOnly_furtherEntries,
      defectsOnly_colon, peek]

/-- The faults of the text are the only ones that the rules report. -/
theorem body_abortsOnly (rule : Rule) :
    rule.body.AbortsOnly fun fault => fault.isTextual = true := by
  by_cases h : rule = .doubleLiteral
  · subst h
    exact textual_doubleLiteral
  · exact (body_defectsOnly h).mono fun _ => Fault.isTextual_of_isDefect

end DhallSyntax
