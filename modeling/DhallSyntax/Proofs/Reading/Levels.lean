import DhallSyntax.Proofs.Reading.Words

/-!
From one level of expressions to the next looser one. What is read as a primitive expression is
read as an expression too, if no longer alternative begins there and nothing that would go on with
the expression follows.
-/

namespace DhallSyntax

/-! ## Whitespace -/

namespace Whitespace

/-- No whitespace begins the text. -/
abbrev Tight (s : List Char) : Prop := chunk s = .none

theorem tight_of_head {s : List Char}
    (h : s.head?.any [' ', '\t', '\n', '\r', '-', '{'].contains = false) : Tight s := by
  cases s with
  | nil => rfl
  | cons c s =>
    have hc : [' ', '\t', '\n', '\r', '-', '{'].contains c = false := h
    simp only [List.contains_cons, List.contains_nil, Bool.or_false, Bool.or_eq_false_iff,
      beq_eq_false_iff_ne] at hc
    simp [Tight, chunk, hc]

theorem tight_of_second {c : Char} {s : List Char} (hc : c = '-' ∨ c = '{')
    (hs : s.head? ≠ some '-') : Tight (c :: s) := by
  obtain rfl | rfl := hc <;> cases s with
  | nil => rfl
  | cons d s =>
    have hd : d ≠ '-' := fun he => hs (congrArg some he)
    simp [Tight, chunk, hd]

theorem extent_tight {s : List Char} (h : Tight s) : extent s = ⟨0, false⟩ := by
  cases s with
  | nil => rfl
  | cons c s => rw [extent, extentWithin, h]

theorem extent_space {s : List Char} (h : Tight s) : extent (' ' :: s) = ⟨1, false⟩ := by
  have hs : extent (' ' :: s) = ⟨1 + (extent s).length, (extent s).unclosed⟩ := rfl
  rw [hs, extent_tight h]
  rfl

end Whitespace

open Whitespace (Tight)

namespace Grammar

variable {rules : RuleReader} {s t : List Char}

theorem readBy_whitespace_tight (h : Tight s) : whitespace.readBy rules s = .value () s := by
  simp only [whitespace, readBy_bind, readBy_look, Reading.bind_value,
    Whitespace.extent_tight h, readBy_advance, List.drop_zero, Bool.false_eq_true, if_false,
    readBy_pure]

theorem readBy_whitespace_space (h : Tight s) :
    whitespace.readBy rules (' ' :: s) = .value () s := by
  simp only [whitespace, readBy_bind, readBy_look, Reading.bind_value,
    Whitespace.extent_space h, readBy_advance, List.drop_succ_cons, List.drop_zero,
    Bool.false_eq_true, if_false, readBy_pure]

theorem readBy_whitespace1_space (h : Tight s) :
    whitespace1.readBy rules (' ' :: s) = .value () s := by
  have hstarts : Whitespace.starts (' ' :: s) = true := rfl
  simp only [whitespace1, readBy_bind, readBy_look, Reading.bind_value, hstarts, if_true,
    readBy_whitespace_space h]

/-! ## Where expressions end -/

/-- No selector goes on with an operand. -/
def EndsOperand (t : List Char) : Prop := selector.read t = .mismatch

/-- Nothing goes on with an application. -/
structure EndsApplication (t : List Char) : Prop where
  operand : EndsOperand t
  argument : (do whitespace1; call .importExpression : Grammar Expr).read t = .mismatch

/-- Nothing goes on with a chain of operators. -/
structure EndsOperation (t : List Char) : Prop where
  application : EndsApplication t
  tail : operatorTail.read t = .mismatch

/-- Nothing goes on with an expression. -/
structure EndsExpression (t : List Char) : Prop where
  operation : EndsOperation t
  colon : colon.read t = .mismatch
  arrow : arrow.read t = .mismatch

variable {e : Expr}

theorem read_selectorExpression (h : Rule.primitiveExpression.read s = .value e t)
    (ht : EndsOperand t) : Rule.selectorExpression.read s = .value e t := by
  have hp : (call .primitiveExpression).read s = .value e t := h
  rw [Rule.read_eq]
  simp only [Rule.body, selectorExpression, readBy_bind, hp, Reading.bind_value,
    readBy_foldMany (.none Selector.apply e ht)]

/-- A name in front of a colon is read up to the colon. -/
theorem read_selectorExpression_colon (hs : s.head?.any CharClass.labelStart = true)
    (hr : Vocabulary.isReserved (String.ofList (wordOf s)) = false)
    (hc : behindWord s = ':' :: t) :
    Rule.selectorExpression.read s =
      .value (.variable (String.ofList (wordOf s)) 0) (':' :: t) := by
  have hnodouble : wordOf s ∉ ["Infinity".toList, "NaN".toList] := by
    have hreserved : ∀ word ∈ ["Infinity".toList, "NaN".toList],
        Vocabulary.isReserved (String.ofList word) = true := by decide
    exact fun hm => Bool.false_ne_true (hr.symm.trans (hreserved _ hm))
  have hlabel : (call .nonreservedLabel).read s =
      .value (String.ofList (wordOf s)) (':' :: t) := by
    refine (Rule.read_eq .nonreservedLabel s).trans ?_
    refine (readBy_labelExcept_word hs _ _).trans ?_
    rw [hr, if_neg Bool.false_ne_true, hc]
  have hspace : whitespace.readBy Rule.read (':' :: t) = .value () (':' :: t) :=
    readBy_whitespace_tight (by rfl)
  have hindex : variableIndex.readBy Rule.read (':' :: t) = .mismatch := by
    have hat : (expect "@").readBy Rule.read (':' :: t) = .mismatch := rfl
    simp only [variableIndex, readBy_bind, hspace, Reading.bind_value, hat, Reading.bind_mismatch]
  refine read_selectorExpression ?_ ?_
  · rw [read_primitiveExpression_word hs hnodouble, Rule.read_eq]
    simp only [Rule.body, identifier, readBy_bind, readBy_optional?, hlabel, Reading.bind_value,
      Reading.orElse_value, hindex, Reading.bind_mismatch, Reading.orElse_mismatch, readBy_pure]
    rfl
  · have hdot : (expect ".").readBy Rule.read (':' :: t) = .mismatch := rfl
    simp only [EndsOperand, selector, readBy_bind, hspace, Reading.bind_value, hdot,
      Reading.bind_mismatch]

theorem read_importExpression_selector (hi : Rule.importClause.read s = .mismatch)
    (h : Rule.selectorExpression.read s = .value e t) :
    Rule.importExpression.read s = .value e t := by
  have hi : (call .importClause).read s = .mismatch := hi
  have h : (call .selectorExpression).read s = .value e t := h
  rw [Rule.read_eq]
  simp only [Rule.body, importExpression, readBy_choice_cons, readBy_bind, hi, h,
    Reading.bind_mismatch, Reading.orElse_mismatch, Reading.orElse_value]

theorem read_importExpression_import {i : Import String}
    (h : Rule.importClause.read s = .value i t) :
    Rule.importExpression.read s = .value (.embedded i) t := by
  have h : (call .importClause).read s = .value i t := h
  rw [Rule.read_eq]
  simp only [Rule.body, importExpression, readBy_choice_cons, readBy_bind, h, Reading.bind_value,
    readBy_pure, Reading.orElse_value]

/-- None of the words is next that begin an application of their own. -/
structure NoApplicationWord (s : List Char) : Prop where
  merge : (keyword "merge").read s = .mismatch
  some : (keyword "Some").read s = .mismatch
  toMap : (keyword "toMap").read s = .mismatch

theorem noApplicationWord_of_first (h : s.head?.any "mSt".toList.contains = false) :
    NoApplicationWord s where
  merge := beginsWith_keyword _ (by decide) s h
  some := beginsWith_keyword _ (by decide) s h
  toMap := beginsWith_keyword _ (by decide) s h

theorem read_firstApplicationExpression (hw : NoApplicationWord s)
    (h : Rule.importExpression.read s = .value e t) :
    Rule.firstApplicationExpression.read s = .value e t := by
  have h : (call .importExpression).read s = .value e t := h
  rw [Rule.read_eq]
  simp only [Rule.body, firstApplicationExpression, readBy_choice_cons, mergeApplication,
    someApplication, toMapApplication, readBy_bind, hw.merge, hw.some, hw.toMap, h,
    Reading.bind_mismatch, Reading.orElse_mismatch, Reading.orElse_value]

theorem read_applicationExpression (h : Rule.firstApplicationExpression.read s = .value e t)
    (ht : EndsApplication t) : Rule.applicationExpression.read s = .value e t := by
  have h : (call .firstApplicationExpression).read s = .value e t := h
  rw [Rule.read_eq]
  simp only [Rule.body, applicationExpression, readBy_bind, h, Reading.bind_value]
  exact readBy_foldMany (.none Tree.app e ht.argument)

theorem read_operatorExpression (h : Rule.applicationExpression.read s = .value e t)
    (ht : EndsOperation t) : Rule.operatorExpression.read s = .value e t := by
  have h : (call .applicationExpression).read s = .value e t := h
  rw [Rule.read_eq]
  simp only [Rule.body, operatorExpression, readBy_bind, h, Reading.bind_value,
    readBy_foldMany (.none (fun (chain : Pending Expr) (tail : Operator × Expr) =>
      chain.push Tree.operation tail.1 tail.2) (Pending.start e) ht.tail)]
  rfl

/-- None of the forms is next that are tried before or beside a chain of operators. -/
structure NoLongerForm (s : List Char) : Prop where
  lambda : Rule.lambdaExpression.read s = .mismatch
  conditional : Rule.ifExpression.read s = .mismatch
  letIn : Rule.letExpression.read s = .mismatch
  pi : Rule.forallExpression.read s = .mismatch
  merge : Rule.mergeExpression.read s = .mismatch
  emptyList : Rule.emptyListExpression.read s = .mismatch
  toMap : Rule.toMapExpression.read s = .mismatch

theorem read_arrowExpression_mismatch (h : Rule.operatorExpression.read s = .value e t)
    (ht : arrow.read t = .mismatch) : Rule.arrowExpression.read s = .mismatch := by
  have h : (call .operatorExpression).read s = .value e t := h
  rw [Rule.read_eq]
  simp only [Rule.body, arrowExpression, readBy_bind, h, Reading.bind_value, ht,
    Reading.bind_mismatch]

/-- Without an operand there is no application. -/
theorem read_applicationExpression_of_operand (hw : NoApplicationWord s)
    (h : Rule.importExpression.read s = .mismatch) :
    Rule.applicationExpression.read s = .mismatch := by
  have h : (call .importExpression).read s = .mismatch := h
  have hfirst : (call .firstApplicationExpression).read s = .mismatch := by
    refine (Rule.read_eq .firstApplicationExpression s).trans ?_
    simp only [Rule.body, firstApplicationExpression, readBy_choice_cons, mergeApplication,
      someApplication, toMapApplication, readBy_bind, hw.merge, hw.some, hw.toMap, h,
      Reading.bind_mismatch, Reading.orElse_mismatch, readBy_choice_nil]
  rw [Rule.read_eq]
  simp only [Rule.body, applicationExpression, readBy_bind, hfirst, Reading.bind_mismatch]

/-- There is no function type either. -/
theorem read_arrowExpression_of_operand (hw : NoApplicationWord s)
    (h : Rule.importExpression.read s = .mismatch) :
    Rule.arrowExpression.read s = .mismatch := by
  have happlication : (call .applicationExpression).read s = .mismatch :=
    read_applicationExpression_of_operand hw h
  have hoperator : (call .operatorExpression).read s = .mismatch := by
    refine (Rule.read_eq .operatorExpression s).trans ?_
    simp only [Rule.body, operatorExpression, readBy_bind, happlication, Reading.bind_mismatch]
  rw [Rule.read_eq]
  simp only [Rule.body, arrowExpression, readBy_bind, hoperator, Reading.bind_mismatch]

theorem read_annotatedExpression (h : Rule.operatorExpression.read s = .value e t)
    (ht : colon.read t = .mismatch) : Rule.annotatedExpression.read s = .value e t := by
  have h : (call .operatorExpression).read s = .value e t := h
  rw [Rule.read_eq]
  simp only [Rule.body, annotatedExpression, readBy_bind, h, Reading.bind_value,
    readBy_optional?, ht, Reading.bind_mismatch, Reading.orElse_mismatch, readBy_pure]

theorem read_annotatedExpression_type {type : Expr} {u v : List Char}
    (h : Rule.operatorExpression.read s = .value e t) (ht : colon.read t = .value () u)
    (htype : Rule.expression.read u = .value type v) :
    Rule.annotatedExpression.read s = .value (.annotated e type) v := by
  have h : (call .operatorExpression).read s = .value e t := h
  have htype : (call .expression).read u = .value type v := htype
  rw [Rule.read_eq]
  simp only [Rule.body, annotatedExpression, readBy_bind, h, Reading.bind_value,
    readBy_optional?, ht, htype, Reading.orElse_value, readBy_pure]

/-- The forms of expressions in their order. -/
theorem read_expression (s : List Char) :
    Rule.expression.read s =
      (Rule.lambdaExpression.read s).orElse ((Rule.ifExpression.read s).orElse
      ((Rule.letExpression.read s).orElse ((Rule.forallExpression.read s).orElse
      ((Rule.arrowExpression.read s).orElse ((Rule.mergeExpression.read s).orElse
      ((Rule.emptyListExpression.read s).orElse ((Rule.toMapExpression.read s).orElse
      ((Rule.annotatedExpression.read s).orElse .mismatch)))))))) :=
  Rule.read_eq _ s

/-- What is read as an expression with an annotation, or without one, is an expression. -/
theorem read_expression_annotated (hf : NoLongerForm s)
    (harrow : Rule.arrowExpression.read s = .mismatch)
    (h : Rule.annotatedExpression.read s = .value e t) :
    Rule.expression.read s = .value e t := by
  rw [read_expression, hf.lambda, hf.conditional, hf.letIn, hf.pi, harrow, hf.merge, hf.emptyList,
    hf.toMap, h]
  rfl

theorem read_expression_operator (hf : NoLongerForm s)
    (h : Rule.operatorExpression.read s = .value e t) (ht : EndsExpression t) :
    Rule.expression.read s = .value e t :=
  read_expression_annotated hf (read_arrowExpression_mismatch h ht.arrow)
    (read_annotatedExpression h ht.colon)

/-- Nothing is next but a primitive expression. -/
structure PlainStart (s : List Char) : Prop where
  noImport : Rule.importClause.read s = .mismatch
  noWord : NoApplicationWord s
  noForm : NoLongerForm s

/-- The first characters of imports, and of the forms that begin with a word or a mark of their
own. A list may be one of these. -/
def formStart : CharClass := "./~ehmStilfλ\\∀[".toList.contains

theorem noLongerForm_of_first (h : s.head?.any "λ\\ilf∀m[t".toList.contains = false) :
    NoLongerForm s where
  lambda := Rule.read_of_first .lambdaExpression (CharClass.head?_any_of_all (by decide) h)
  conditional := Rule.read_of_first .ifExpression (CharClass.head?_any_of_all (by decide) h)
  letIn := Rule.read_of_first .letExpression (CharClass.head?_any_of_all (by decide) h)
  pi := Rule.read_of_first .forallExpression (CharClass.head?_any_of_all (by decide) h)
  merge := Rule.read_of_first .mergeExpression (CharClass.head?_any_of_all (by decide) h)
  emptyList := Rule.read_of_first .emptyListExpression (CharClass.head?_any_of_all (by decide) h)
  toMap := Rule.read_of_first .toMapExpression (CharClass.head?_any_of_all (by decide) h)

theorem plainStart_of_first (h : s.head?.any formStart = false) : PlainStart s where
  noImport := Rule.read_of_first .importClause (CharClass.head?_any_of_all (by decide) h)
  noWord := noApplicationWord_of_first (CharClass.head?_any_of_all (by decide) h)
  noForm := noLongerForm_of_first (CharClass.head?_any_of_all (by decide) h)

theorem read_application_plain (hp : PlainStart s)
    (h : Rule.primitiveExpression.read s = .value e t) (ht : EndsApplication t) :
    Rule.applicationExpression.read s = .value e t :=
  read_applicationExpression (read_firstApplicationExpression hp.noWord
    (read_importExpression_selector hp.noImport (read_selectorExpression h ht.operand))) ht

theorem read_expression_plain (hp : PlainStart s)
    (h : Rule.primitiveExpression.read s = .value e t) (ht : EndsExpression t) :
    Rule.expression.read s = .value e t :=
  read_expression_operator hp.noForm
    (read_operatorExpression (read_application_plain hp h ht.operation.application) ht.operation)
    ht

/-- Without a primitive expression there is no expression either. -/
theorem read_expression_plain_mismatch (hp : PlainStart s)
    (h : Rule.primitiveExpression.read s = .mismatch) : Rule.expression.read s = .mismatch := by
  have h : (call .primitiveExpression).read s = .mismatch := h
  have hselector : (call .selectorExpression).read s = .mismatch := by
    refine (Rule.read_eq .selectorExpression s).trans ?_
    simp only [Rule.body, selectorExpression, readBy_bind, h, Reading.bind_mismatch]
  have hclause : (call .importClause).read s = .mismatch := hp.noImport
  have himport : Rule.importExpression.read s = .mismatch := by
    rw [Rule.read_eq]
    simp only [Rule.body, importExpression, readBy_choice_cons, readBy_bind, hclause, hselector,
      Reading.bind_mismatch, Reading.orElse_mismatch, readBy_choice_nil]
  have happlication : (call .applicationExpression).read s = .mismatch :=
    read_applicationExpression_of_operand hp.noWord himport
  have hoperator : (call .operatorExpression).read s = .mismatch := by
    refine (Rule.read_eq .operatorExpression s).trans ?_
    simp only [Rule.body, operatorExpression, readBy_bind, happlication, Reading.bind_mismatch]
  have hannotated : Rule.annotatedExpression.read s = .mismatch := by
    rw [Rule.read_eq]
    simp only [Rule.body, annotatedExpression, readBy_bind, hoperator, Reading.bind_mismatch]
  rw [read_expression, hp.noForm.lambda, hp.noForm.conditional, hp.noForm.letIn, hp.noForm.pi,
    read_arrowExpression_of_operand hp.noWord himport, hp.noForm.merge, hp.noForm.emptyList,
    hp.noForm.toMap, hannotated]
  rfl

/-- Spaces around an expression. -/
theorem read_completeExpression (hs : Tight s) (h : Rule.expression.read s = .value e (' ' :: t))
    (ht : Tight t) : completeExpression.read (' ' :: s) = .value e t := by
  have h : (call .expression).read s = .value e (' ' :: t) := h
  simp only [completeExpression, readBy_bind, readBy_whitespace_space hs, h,
    readBy_whitespace_space ht, Reading.bind_value, readBy_pure]

/-! ## What may follow -/

theorem endsExpression_nil : EndsExpression [] :=
  ⟨⟨⟨rfl, rfl⟩, rfl⟩, rfl, rfl⟩

theorem endsExpression_closing {c : Char} (hc : c ∈ [')', ']', '}', ',', '>']) (r : List Char) :
    EndsExpression (' ' :: c :: r) := by
  simp only [List.mem_cons, List.not_mem_nil, or_false] at hc
  obtain rfl | rfl | rfl | rfl | rfl := hc
  all_goals
    refine ⟨⟨⟨rfl, ?_⟩, rfl⟩, rfl, rfl⟩
    exact Rule.read_of_first .importExpression rfl

theorem endsOperation_colon (r : List Char) : EndsOperation (' ' :: ':' :: r) :=
  ⟨⟨rfl, Rule.read_of_first .importExpression rfl⟩, rfl⟩

theorem endsExpression_mark {c : Char} (hc : c ∈ ['|', '=']) (r : List Char) :
    EndsExpression (' ' :: c :: ' ' :: r) := by
  simp only [List.mem_cons, List.not_mem_nil, or_false] at hc
  obtain rfl | rfl := hc
  all_goals
    refine ⟨⟨⟨rfl, ?_⟩, rfl⟩, rfl, rfl⟩
    exact Rule.read_of_first .importExpression rfl

/-- A keyword with a space behind it is no operand. -/
theorem read_importExpression_word {word : String} (hk : Vocabulary.isKeyword word = true)
    (hne : word ∉ ["missing", "Infinity", "NaN"]) (r : List Char) :
    Rule.importExpression.read (word.toList ++ ' ' :: r) = .mismatch := by
  have hwords : ∀ entry ∈ Vocabulary.keywords,
      entry.2.toList.all CharClass.labelContinue = true ∧ entry.2.toList.head?.any CharClass.labelStart = true := by
    decide
  simp only [Vocabulary.isKeyword, Vocabulary.keyword?, Option.isSome_map] at hk
  obtain ⟨entry, he, hw⟩ := List.find?_isSome.mp hk
  obtain rfl := beq_iff_eq.mp hw
  obtain ⟨hcontinue, hstart⟩ := hwords entry he
  obtain ⟨hword, -⟩ := wordOf_append hcontinue (by rfl : (' ' :: r).head?.any _ = false)
  have hbegins : BeginsKeyword (entry.2.toList ++ ' ' :: r) := by
    refine ⟨?_, ?_⟩
    · obtain ⟨c, t, ht, hc⟩ := CharClass.head?_of_any hstart
      rw [ht]
      exact hc
    · rw [hword, String.ofList_toList, Vocabulary.isKeyword, Vocabulary.keyword?,
        Option.isSome_map]
      exact hk
  refine Rule.refuses_importExpression.read ⟨hbegins, ?_⟩
  rw [hword]
  simpa [← String.toList_inj] using hne

theorem endsExpression_word {word : String} (hw : word ∈ ["then", "else", "in", "let"])
    (r : List Char) : EndsExpression (' ' :: (word.toList ++ ' ' :: r)) := by
  have hkeyword : ∀ word ∈ ["then", "else", "in", "let"],
      Vocabulary.isKeyword word = true ∧ word ∉ ["missing", "Infinity", "NaN"] := by decide
  obtain ⟨hk, hne⟩ := hkeyword word hw
  have hmisses := read_importExpression_word hk hne r
  simp only [List.mem_cons, List.not_mem_nil, or_false] at hw
  obtain rfl | rfl | rfl | rfl := hw
  all_goals exact ⟨⟨⟨rfl, hmisses⟩, rfl⟩, rfl, rfl⟩

end Grammar

end DhallSyntax
