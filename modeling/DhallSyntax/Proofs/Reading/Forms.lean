import DhallSyntax.Proofs.Reading.Leaves

/-!
Written expressions are read back if their parts are, one lemma a form. A form with a word or a
mark of its own begins with it; the others begin with a group, and what follows the group decides.
-/

namespace DhallSyntax

open Grammar
open Rendering (grouped word)
open Whitespace (Tight)

variable {a b c : List Char} {x y z : Expr}

/-! ## Groups in a row -/

theorem endsOperand_grouped (cs t : List Char) : EndsOperand (' ' :: (grouped cs ++ t)) := rfl

theorem writes_app (hf : Writes a x) (ha : Writes b y) :
    Writes (grouped a ++ ' ' :: grouped b) (.app x y) where
  tight t := rfl
  read t ht := by
    have hends := ht.ends.operation
    have hfunction : (call .firstApplicationExpression).read
        (grouped a ++ ' ' :: (grouped b ++ t)) = .value x (' ' :: (grouped b ++ t)) :=
      read_firstApplicationExpression (plainStart_of_first rfl).noWord
        (hf.read_import (endsOperand_grouped b t))
    have hargument : (do whitespace1; call .importExpression : Grammar Expr).read
        (' ' :: (grouped b ++ t)) = .value y t := by
      have himport : (call .importExpression).read (grouped b ++ t) = .value y t :=
        ha.read_import hends.application.operand
      simp only [readBy_bind, readBy_whitespace1_space (tight_grouped b t), Reading.bind_value,
        himport]
    have happlication : Rule.applicationExpression.read (grouped a ++ ' ' :: (grouped b ++ t)) =
        .value (.app x y) t := by
      rw [Rule.read_eq]
      simp only [Rule.body, applicationExpression, readBy_bind, hfunction, Reading.bind_value]
      refine readBy_foldMany (.some hargument ?_ (.none Tree.app _ hends.application.argument))
      simp only [List.length_cons, List.length_append]
      omega
    rw [List.append_assoc, List.cons_append]
    exact read_expression_operator (plainStart_of_first rfl).noForm
      (read_operatorExpression happlication hends) ht.ends

/-- No operator with a space behind it begins an operand. A plus might be the sign of a number. -/
theorem read_importExpression_operator (op : Operator) (r : List Char) :
    Rule.importExpression.read (op.symbol.toList ++ ' ' :: r) = .mismatch := by
  have hplus : ∀ r : List Char, Rule.doubleLiteral.read ('+' :: r) = .mismatch →
      Rule.integerLiteral.read ('+' :: r) = .mismatch →
      Rule.importExpression.read ('+' :: r) = .mismatch := by
    intro r hdouble hinteger
    have hmisses : ∀ rule : Rule, rule.first '+' = false → rule.read ('+' :: r) = .mismatch :=
      fun rule h => rule.read_of_first h
    refine read_importExpression_mismatch (hmisses .importClause rfl) ?_
    rw [read_primitiveExpression, hdouble, hmisses .naturalLiteral rfl, hinteger,
      hmisses .textLiteral rfl, hmisses .recordExpression rfl, hmisses .unionType rfl,
      hmisses .listLiteral rfl, hmisses .identifier rfl]
    rfl
  cases op with
  | naturalPlus | textAppend =>
    exact hplus _ ((Rule.read_eq .doubleLiteral _).trans rfl)
      ((Rule.read_eq .integerLiteral _).trans rfl)
  | _ => exact Rule.read_of_first .importExpression rfl

theorem endsApplication_operator (op : Operator) (r : List Char) :
    EndsApplication (' ' :: (op.symbol.toList ++ ' ' :: r)) where
  operand := by cases op <;> rfl
  argument := by
    have hmisses : (call .importExpression).read (op.symbol.toList ++ ' ' :: r) = .mismatch :=
      read_importExpression_operator op r
    have htight : Tight (op.symbol.toList ++ ' ' :: r) := by cases op <;> rfl
    simp only [readBy_bind, readBy_whitespace1_space htight, Reading.bind_value, hmisses]

theorem read_binaryOperator (op : Operator) (cs t : List Char) :
    binaryOperator.read (' ' :: (op.symbol.toList ++ ' ' :: (grouped cs ++ t))) =
      .value op (grouped cs ++ t) := by
  cases op <;> rfl

theorem writes_operation (op : Operator) (hl : Writes a x) (hr : Writes b y) :
    Writes (grouped a ++ ' ' :: op.symbol.toList ++ ' ' :: grouped b) (.operation op x y) where
  tight t := rfl
  read t ht := by
    have hends := ht.ends.operation
    have hfirst : (call .applicationExpression).read
        (grouped a ++ ' ' :: (op.symbol.toList ++ ' ' :: (grouped b ++ t))) =
          .value x (' ' :: (op.symbol.toList ++ ' ' :: (grouped b ++ t))) :=
      hl.read_application (endsApplication_operator op _)
    have htail : operatorTail.read (' ' :: (op.symbol.toList ++ ' ' :: (grouped b ++ t))) =
        .value (op, y) t := by
      have hright : (call .applicationExpression).read (grouped b ++ t) = .value y t :=
        hr.read_application hends.application
      simp only [operatorTail, readBy_bind, read_binaryOperator op b t, hright,
        Reading.bind_value, readBy_pure]
    have hchain : Rule.operatorExpression.read
        (grouped a ++ ' ' :: (op.symbol.toList ++ ' ' :: (grouped b ++ t))) =
          .value (.operation op x y) t := by
      rw [Rule.read_eq]
      simp only [Rule.body, operatorExpression, readBy_bind, hfirst, Reading.bind_value]
      rw [readBy_foldMany (.some htail ?_ (.none _ _ hends.tail))]
      · rfl
      · simp only [List.length_cons, List.length_append]
        omega
    rw [List.append_assoc, List.append_assoc, List.cons_append, List.cons_append]
    exact read_expression_operator (plainStart_of_first rfl).noForm hchain ht.ends

theorem writes_annotated (h : Writes a x) (htype : Writes b y) :
    Writes (grouped a ++ Rendering.annotation (some b)) (.annotated x y) where
  tight t := rfl
  read t ht := by
    have hsubject := h.read_operator (endsOperation_colon (' ' :: (grouped b ++ t)))
    have hannotated : Rule.annotatedExpression.read
        (grouped a ++ ' ' :: ':' :: ' ' :: (grouped b ++ t)) = .value (.annotated x y) t :=
      read_annotatedExpression_type hsubject rfl (htype.read_expression ht.ends)
    rw [List.append_assoc]
    exact read_expression_annotated (plainStart_of_first rfl).noForm
      (read_arrowExpression_mismatch hsubject rfl) hannotated

/-! ## Selection -/

theorem endsOperand_of_closes {t : List Char} (ht : Closes t) : EndsOperand t :=
  ht.ends.operation.application.operand

theorem writes_selection {text : List Char} {s : Selector} (h : Writes a x)
    (hs : ∀ t, Closes t → selector.read (word " . " ++ (text ++ t)) = .value s t) :
    Writes (Rendering.selection a text) (s.apply x) where
  tight t := rfl
  read t ht := by
    have hrecord : (call .primitiveExpression).read (grouped a ++ (word " . " ++ (text ++ t))) =
        .value x (word " . " ++ (text ++ t)) := h.read_primitive _
    have hselector : Rule.selectorExpression.read (grouped a ++ (word " . " ++ (text ++ t))) =
        .value (s.apply x) t := by
      rw [Rule.read_eq]
      simp only [Rule.body, selectorExpression, readBy_bind, hrecord, Reading.bind_value]
      refine readBy_foldMany (.some (hs t ht) ?_ (.none _ _ (endsOperand_of_closes ht)))
      have hdot : (word " . ").length = 3 := rfl
      simp only [List.length_append]
      omega
    have hplain : PlainStart (grouped a ++ (word " . " ++ (text ++ t))) :=
      plainStart_of_first rfl
    rw [Rendering.selection, List.append_assoc, List.append_assoc]
    exact read_expression_operator hplain.noForm (read_operatorExpression
      (read_applicationExpression (read_firstApplicationExpression hplain.noWord
        (read_importExpression_selector hplain.noImport hselector)) ht.ends.operation.application)
      ht.ends.operation) ht.ends

theorem writes_field {l : String} (h : Writes a x) (hl : IsLabel l) :
    Writes (Rendering.selection a (Rendering.label l)) (.field x l) := by
  refine writes_selection (s := .label l) h fun t _ => ?_
  have hlabel : (call .label).read (Rendering.label l ++ t) = .value l t := read_label hl t
  have hselector : selector.read (word " . " ++ (Rendering.label l ++ t)) =
      ((call .label).read (Rendering.label l ++ t)).bind fun l s => .value (.label l) s := rfl
  rw [hselector, hlabel, Reading.bind_value]

theorem writes_projectionByType (h : Writes a x) (ht : Writes b y) :
    Writes (Rendering.selection a (grouped (grouped b))) (.projectionByType x y) := by
  refine writes_selection (s := .type y) h fun t _ => ?_
  have hcomplete := read_completeExpression (tight_grouped b _)
    (ht.read_expression (endsExpression_closing (by decide : ')' ∈ _) t))
    (by rfl : Tight (')' :: t))
  have hselector : selector.read (word " . " ++ (grouped (grouped b) ++ t)) =
      (completeExpression.read (' ' :: ((grouped b ++ [' ', ')']) ++ t))).bind fun type s =>
        ((expect ")").read s).bind fun _ s => .value (.type type) s := rfl
  rw [hselector, List.append_assoc]
  exact hcomplete ▸ rfl

/-! ## Forms with a body -/

theorem tight_label (l : String) (t : List Char) : Tight (Rendering.label l ++ t) := rfl

/-- A binder, from behind the mark that opens it. -/
theorem read_binder {name : String} (hname : IsLabel name) (h : Writes a x) (t : List Char) :
    binder.read (' ' :: '(' :: ' ' :: (Rendering.label name ++
      ' ' :: ':' :: ' ' :: (grouped a ++ ' ' :: ')' :: t))) = .value (name, x) t := by
  have hlabel : (call .nonreservedLabel).read (Rendering.label name ++
      ' ' :: ':' :: ' ' :: (grouped a ++ ' ' :: ')' :: t)) =
        .value name (' ' :: ':' :: ' ' :: (grouped a ++ ' ' :: ')' :: t)) :=
    read_nonreservedLabel hname _
  have hdomain : (call .expression).read (grouped a ++ ' ' :: ')' :: t) =
      .value x (' ' :: ')' :: t) :=
    h.read_expression (endsExpression_closing (by decide) t)
  have hopen : ∀ s, whitespace.read (' ' :: '(' :: s) = .value () ('(' :: s) ∧
      (expect "(").read ('(' :: s) = .value () s := fun _ => ⟨rfl, rfl⟩
  have hcolon : ∀ s, whitespace.read (' ' :: ':' :: s) = .value () (':' :: s) ∧
      (expect ":").read (':' :: s) = .value () s := fun _ => ⟨rfl, rfl⟩
  have hclose : ∀ s, whitespace.read (' ' :: ')' :: s) = .value () (')' :: s) ∧
      (expect ")").read (')' :: s) = .value () s := fun _ => ⟨rfl, rfl⟩
  simp only [binder, readBy_bind, hopen, readBy_whitespace_space (tight_label name _), hlabel,
    hcolon, readBy_whitespace1_space (tight_grouped a _), hdomain, hclose, Reading.bind_value,
    readBy_pure]

theorem read_arrow (cs t : List Char) :
    arrow.read (' ' :: '→' :: ' ' :: (grouped cs ++ t)) = .value () (grouped cs ++ t) := rfl

theorem binding_append (mark : Char) (name : String) (domain body t : List Char) :
    Rendering.binding (String.ofList [mark, ' ', '(', ' ']) name domain body ++ t =
      mark :: ' ' :: '(' :: ' ' :: (Rendering.label name ++ ' ' :: ':' :: ' ' ::
        (grouped domain ++ ' ' :: ')' :: ' ' :: '→' :: ' ' :: (grouped body ++ t))) := by
  simp [Rendering.binding, word]

theorem writes_lambda {name : String} (hname : IsLabel name) (hdomain : Writes a x)
    (hbody : Writes b y) : Writes (Rendering.binding "λ ( " name a b) (.lambda name x y) where
  tight t := rfl
  read t ht := by
    have hbinder := read_binder hname hdomain (' ' :: '→' :: ' ' :: (grouped b ++ t))
    have hbody' : (call .expression).read (grouped b ++ t) = .value y t :=
      hbody.read_expression ht.ends
    have hform : Rule.lambdaExpression.read (Rendering.binding "λ ( " name a b ++ t) =
        .value (.lambda name x y) t := by
      have hbegins : Rule.lambdaExpression.body.read (Rendering.binding "λ ( " name a b ++ t) =
          (binder.read (' ' :: '(' :: ' ' :: (Rendering.label name ++ ' ' :: ':' :: ' ' ::
            (grouped a ++ ' ' :: ')' :: ' ' :: '→' :: ' ' :: (grouped b ++ t))))).bind
            fun binder s =>
              (arrow.read s).bind fun _ s =>
                ((call .expression).read s).bind fun body s =>
                  .value (.lambda binder.1 binder.2 body) s := by
        rw [show "λ ( " = String.ofList ['λ', ' ', '(', ' '] from rfl, binding_append]
        rfl
      rw [Rule.read_eq, hbegins, hbinder, Reading.bind_value, read_arrow, Reading.bind_value,
        hbody', Reading.bind_value]
    rw [read_expression, hform]
    rfl

theorem writes_pi {name : String} (hname : IsLabel name) (hdomain : Writes a x)
    (hbody : Writes b y) : Writes (Rendering.binding "∀ ( " name a b) (.pi name x y) where
  tight t := rfl
  read t ht := by
    have hbinder := read_binder hname hdomain (' ' :: '→' :: ' ' :: (grouped b ++ t))
    have hbody' : (call .expression).read (grouped b ++ t) = .value y t :=
      hbody.read_expression ht.ends
    have hform : Rule.forallExpression.read (Rendering.binding "∀ ( " name a b ++ t) =
        .value (.pi name x y) t := by
      have hbegins : Rule.forallExpression.body.read (Rendering.binding "∀ ( " name a b ++ t) =
          (binder.read (' ' :: '(' :: ' ' :: (Rendering.label name ++ ' ' :: ':' :: ' ' ::
            (grouped a ++ ' ' :: ')' :: ' ' :: '→' :: ' ' :: (grouped b ++ t))))).bind
            fun binder s =>
              (arrow.read s).bind fun _ s =>
                ((call .expression).read s).bind fun body s =>
                  .value (.pi binder.1 binder.2 body) s := by
        rw [show "∀ ( " = String.ofList ['∀', ' ', '(', ' '] from rfl, binding_append]
        rfl
      rw [Rule.read_eq, hbegins, hbinder, Reading.bind_value, read_arrow, Reading.bind_value,
        hbody', Reading.bind_value]
    have hmisses : ∀ rule : Rule, rule.first '∀' = false →
        rule.read (Rendering.binding "∀ ( " name a b ++ t) = .mismatch :=
      fun rule h => rule.read_of_first h
    rw [read_expression, hmisses .lambdaExpression rfl, hmisses .ifExpression rfl,
      hmisses .letExpression rfl, hform]
    rfl

/-- A keyword between two spaces, behind an expression. -/
theorem read_expression_keyword (h : Writes a x) {word : String}
    (hw : word ∈ ["then", "else", "in", "let"]) (r : List Char) :
    (call .expression).read (grouped a ++ (' ' :: (word.toList ++ ' ' :: r))) =
      .value x (' ' :: (word.toList ++ ' ' :: r)) :=
  h.read_expression (endsExpression_word hw r)

theorem writes_conditional (h : Writes a x) (hyes : Writes b y) (hno : Writes c z) :
    Writes (Rendering.conditional a b c) (.conditional x y z) where
  tight t := rfl
  read t ht := by
    have hshape : Rendering.conditional a b c ++ t =
        word "if " ++ (grouped a ++ (' ' :: ("then".toList ++ ' ' :: (grouped b ++
          (' ' :: ("else".toList ++ ' ' :: (grouped c ++ t))))))) := by
      have hthen : word "then " = "then".toList ++ [' '] := rfl
      have helse : word "else " = "else".toList ++ [' '] := rfl
      simp only [Rendering.conditional, Rendering.behind, hthen, helse, List.append_assoc,
        List.cons_append, List.nil_append]
    have hcondition := read_expression_keyword h (by decide : "then" ∈ _)
      (grouped b ++ (' ' :: ("else".toList ++ ' ' :: (grouped c ++ t))))
    have hthen := read_expression_keyword hyes (by decide : "else" ∈ _) (grouped c ++ t)
    have helse : (call .expression).read (grouped c ++ t) = .value z t :=
      hno.read_expression ht.ends
    have hword : ∀ word ∈ ["then", "else"], ∀ r,
        whitespace.read (' ' :: (word.toList ++ ' ' :: r)) =
          .value () (word.toList ++ ' ' :: r) ∧
        (keyword word).read (word.toList ++ ' ' :: r) = .value () (' ' :: r) := by
      intro word hword r
      simp only [List.mem_cons, List.not_mem_nil, or_false] at hword
      obtain rfl | rfl := hword <;> exact ⟨rfl, rfl⟩
    have hif : ∀ r, (keyword "if").read (word "if " ++ r) = .value () (' ' :: r) :=
      fun r => rfl
    have hform : Rule.ifExpression.read (word "if " ++ (grouped a ++ (' ' :: ("then".toList ++
        ' ' :: (grouped b ++ (' ' :: ("else".toList ++ ' ' :: (grouped c ++ t)))))))) =
          .value (.conditional x y z) t := by
      rw [Rule.read_eq]
      simp only [Rule.body, ifExpression, readBy_bind, hif, Reading.bind_value,
        readBy_whitespace1_space (tight_grouped _ _), hcondition,
        hword "then" (by decide), hthen, hword "else" (by decide), helse, readBy_pure]
    rw [hshape, read_expression, Rule.read_of_first .lambdaExpression rfl, hform]
    rfl

/-! ## Words with operands -/

theorem writes_present (h : Writes a x) : Writes (Rendering.behind "Some " a) (.present x) where
  tight t := rfl
  read t ht := by
    have hends := ht.ends.operation
    have hoperand : (call .importExpression).read (grouped a ++ t) = .value x t :=
      h.read_import hends.application.operand
    have hmerge : mergeApplication.read (word "Some " ++ (grouped a ++ t)) = .mismatch := rfl
    have hsome : someApplication.read (word "Some " ++ (grouped a ++ t)) =
        .value (.present x) t := by
      have hword : (keyword "Some").read (word "Some " ++ (grouped a ++ t)) =
          .value () (' ' :: (grouped a ++ t)) := rfl
      simp only [someApplication, readBy_bind, hword, Reading.bind_value,
        readBy_whitespace1_space (tight_grouped a t), hoperand, readBy_pure]
    have hfirst : Rule.firstApplicationExpression.read (word "Some " ++ (grouped a ++ t)) =
        .value (.present x) t := by
      rw [Rule.read_eq]
      simp only [Rule.body, firstApplicationExpression, readBy_choice_cons, hmerge, hsome,
        Reading.orElse_mismatch, Reading.orElse_value]
    rw [Rendering.behind, List.append_assoc]
    exact read_expression_operator (noLongerForm_of_first rfl)
      (read_operatorExpression (read_applicationExpression hfirst hends.application) hends) ht.ends

/-- A colon and a type of an application, as a word with operands may have it behind them. -/
theorem read_annotation_application (h : Writes a x) {t : List Char} (ht : EndsApplication t) :
    colon.read (word " : " ++ (grouped a ++ t)) = .value () (grouped a ++ t) ∧
      (call .applicationExpression).read (grouped a ++ t) = .value x t :=
  ⟨rfl, h.read_application ht⟩

theorem read_mergeOperands (ha : Writes a x) (hb : Writes b y) {t : List Char}
    (ht : EndsOperand t) :
    (keyword "merge").read (word "merge " ++ (grouped a ++ ' ' :: (grouped b ++ t))) =
        .value () (' ' :: (grouped a ++ ' ' :: (grouped b ++ t))) ∧
      (call .importExpression).read (grouped a ++ ' ' :: (grouped b ++ t)) =
        .value x (' ' :: (grouped b ++ t)) ∧
      (call .importExpression).read (grouped b ++ t) = .value y t :=
  ⟨rfl, ha.read_import (endsOperand_grouped b t), hb.read_import ht⟩

/-- Without its annotation a merge is an application. -/
theorem read_operatorExpression_merge (ha : Writes a x) (hb : Writes b y) {t : List Char}
    (ht : EndsOperation t) :
    Rule.operatorExpression.read (word "merge " ++ (grouped a ++ ' ' :: (grouped b ++ t))) =
      .value (.merge x y none) t := by
  obtain ⟨hword, hhandler, hunion⟩ := read_mergeOperands ha hb ht.application.operand
  have hmerge : mergeApplication.read
      (word "merge " ++ (grouped a ++ ' ' :: (grouped b ++ t))) =
        .value (.merge x y none) t := by
    simp only [mergeApplication, readBy_bind, hword, Reading.bind_value,
      readBy_whitespace1_space (tight_grouped _ _), hhandler, hunion, readBy_pure]
  have hfirst : Rule.firstApplicationExpression.read
      (word "merge " ++ (grouped a ++ ' ' :: (grouped b ++ t))) =
        .value (.merge x y none) t := by
    rw [Rule.read_eq]
    simp only [Rule.body, firstApplicationExpression, readBy_choice_cons, hmerge,
      Reading.orElse_value]
  exact read_operatorExpression (read_applicationExpression hfirst ht.application) ht

theorem writes_merge (ha : Writes a x) (hb : Writes b y) :
    Writes (Rendering.merge a b none) (.merge x y none) where
  tight t := rfl
  read t ht := by
    have hshape : Rendering.merge a b none ++ t =
        word "merge " ++ (grouped a ++ ' ' :: (grouped b ++ t)) := by
      simp only [Rendering.merge, Rendering.behind, Rendering.annotation, List.append_assoc,
        List.cons_append, List.append_nil]
    rw [hshape]
    have hends := ht.ends.operation
    obtain ⟨hword, hhandler, hunion⟩ := read_mergeOperands ha hb hends.application.operand
    have hform : Rule.mergeExpression.read
        (word "merge " ++ (grouped a ++ ' ' :: (grouped b ++ t))) = .mismatch := by
      rw [Rule.read_eq]
      simp only [Rule.body, mergeExpression, readBy_bind, hword, Reading.bind_value,
        readBy_whitespace1_space (tight_grouped _ _), hhandler, hunion, ht.ends.colon,
        Reading.bind_mismatch]
    have hmisses := Rule.read_of_head
      (by rfl : (word "merge " ++ (grouped a ++ ' ' :: (grouped b ++ t))).head? = some 'm')
    exact read_expression_operator
      { lambda := hmisses .lambdaExpression rfl
        conditional := hmisses .ifExpression rfl
        letIn := hmisses .letExpression rfl
        pi := hmisses .forallExpression rfl
        merge := hform
        emptyList := hmisses .emptyListExpression rfl
        toMap := hmisses .toMapExpression rfl }
      (read_operatorExpression_merge ha hb hends) ht.ends

theorem writes_merge_annotated (ha : Writes a x) (hb : Writes b y) (hc : Writes c z) :
    Writes (Rendering.merge a b (some c)) (.merge x y (some z)) where
  tight t := rfl
  read t ht := by
    have hshape : Rendering.merge a b (some c) ++ t =
        word "merge " ++ (grouped a ++ ' ' :: (grouped b ++ (word " : " ++
          (grouped c ++ t)))) := by
      simp only [Rendering.merge, Rendering.behind, Rendering.annotation, List.append_assoc,
        List.cons_append]
    rw [hshape]
    have hcolon : EndsOperation (word " : " ++ (grouped c ++ t)) := endsOperation_colon _
    obtain ⟨hword, hhandler, hunion⟩ := read_mergeOperands ha hb hcolon.application.operand
    obtain ⟨hmark, htype⟩ := read_annotation_application hc ht.ends.operation.application
    have hform : Rule.mergeExpression.read
        (word "merge " ++ (grouped a ++ ' ' :: (grouped b ++ (word " : " ++
          (grouped c ++ t))))) = .value (.merge x y (some z)) t := by
      rw [Rule.read_eq]
      simp only [Rule.body, mergeExpression, readBy_bind, hword, Reading.bind_value,
        readBy_whitespace1_space (tight_grouped _ _), hhandler, hunion, hmark, htype, readBy_pure]
    have hmisses := Rule.read_of_head (by rfl : (word "merge " ++ (grouped a ++ ' ' ::
      (grouped b ++ (word " : " ++ (grouped c ++ t))))).head? = some 'm')
    rw [read_expression, hmisses .lambdaExpression rfl, hmisses .ifExpression rfl,
      hmisses .letExpression rfl, hmisses .forallExpression rfl,
      read_arrowExpression_mismatch (read_operatorExpression_merge ha hb hcolon) rfl, hform]
    rfl

theorem read_toMapOperand (h : Writes a x) {t : List Char} (ht : EndsOperand t) :
    (keyword "toMap").read (word "toMap " ++ (grouped a ++ t)) =
        .value () (' ' :: (grouped a ++ t)) ∧
      (call .importExpression).read (grouped a ++ t) = .value x t :=
  ⟨rfl, h.read_import ht⟩

/-- Without its annotation a conversion to a map is an application. -/
theorem read_operatorExpression_toMap (h : Writes a x) {t : List Char} (ht : EndsOperation t) :
    Rule.operatorExpression.read (word "toMap " ++ (grouped a ++ t)) =
      .value (.toMap x none) t := by
  obtain ⟨hword, hrecord⟩ := read_toMapOperand h ht.application.operand
  have hmerge : mergeApplication.read (word "toMap " ++ (grouped a ++ t)) = .mismatch := rfl
  have hsome : someApplication.read (word "toMap " ++ (grouped a ++ t)) = .mismatch := rfl
  have htoMap : toMapApplication.read (word "toMap " ++ (grouped a ++ t)) =
      .value (.toMap x none) t := by
    simp only [toMapApplication, readBy_bind, hword, Reading.bind_value,
      readBy_whitespace1_space (tight_grouped _ _), hrecord, readBy_pure]
  have hfirst : Rule.firstApplicationExpression.read (word "toMap " ++ (grouped a ++ t)) =
      .value (.toMap x none) t := by
    rw [Rule.read_eq]
    simp only [Rule.body, firstApplicationExpression, readBy_choice_cons, hmerge, hsome, htoMap,
      Reading.orElse_mismatch, Reading.orElse_value]
  exact read_operatorExpression (read_applicationExpression hfirst ht.application) ht

theorem writes_toMap (h : Writes a x) :
    Writes (Rendering.behind "toMap " a ++ Rendering.annotation none) (.toMap x none) where
  tight t := rfl
  read t ht := by
    have hshape : Rendering.behind "toMap " a ++ Rendering.annotation none ++ t =
        word "toMap " ++ (grouped a ++ t) := by
      simp only [Rendering.behind, Rendering.annotation, List.append_assoc, List.append_nil]
    rw [hshape]
    obtain ⟨hword, hrecord⟩ := read_toMapOperand h (endsOperand_of_closes ht)
    have hform : Rule.toMapExpression.read (word "toMap " ++ (grouped a ++ t)) =
        .mismatch := by
      rw [Rule.read_eq]
      simp only [Rule.body, toMapExpression, readBy_bind, hword, Reading.bind_value,
        readBy_whitespace1_space (tight_grouped _ _), hrecord, ht.ends.colon,
        Reading.bind_mismatch]
    have hmisses := Rule.read_of_head
      (by rfl : (word "toMap " ++ (grouped a ++ t)).head? = some 't')
    exact read_expression_operator
      { lambda := hmisses .lambdaExpression rfl
        conditional := hmisses .ifExpression rfl
        letIn := hmisses .letExpression rfl
        pi := hmisses .forallExpression rfl
        merge := hmisses .mergeExpression rfl
        emptyList := hmisses .emptyListExpression rfl
        toMap := hform }
      (read_operatorExpression_toMap h ht.ends.operation) ht.ends

theorem writes_toMap_annotated (h : Writes a x) (htype : Writes b y) :
    Writes (Rendering.behind "toMap " a ++ Rendering.annotation (some b))
      (.toMap x (some y)) where
  tight t := rfl
  read t ht := by
    have hshape : Rendering.behind "toMap " a ++ Rendering.annotation (some b) ++ t =
        word "toMap " ++ (grouped a ++ (word " : " ++ (grouped b ++ t))) := by
      simp only [Rendering.behind, Rendering.annotation, List.append_assoc]
    rw [hshape]
    have hcolon : EndsOperation (word " : " ++ (grouped b ++ t)) := endsOperation_colon _
    obtain ⟨hword, hrecord⟩ := read_toMapOperand h hcolon.application.operand
    obtain ⟨hmark, htype⟩ := read_annotation_application htype ht.ends.operation.application
    have hform : Rule.toMapExpression.read (word "toMap " ++ (grouped a ++
        (word " : " ++ (grouped b ++ t)))) = .value (.toMap x (some y)) t := by
      rw [Rule.read_eq]
      simp only [Rule.body, toMapExpression, readBy_bind, hword, Reading.bind_value,
        readBy_whitespace1_space (tight_grouped _ _), hrecord, hmark, htype, readBy_pure]
    have hmisses := Rule.read_of_head (by rfl : (word "toMap " ++ (grouped a ++
      (word " : " ++ (grouped b ++ t)))).head? = some 't')
    rw [read_expression, hmisses .lambdaExpression rfl, hmisses .ifExpression rfl,
      hmisses .letExpression rfl, hmisses .forallExpression rfl,
      read_arrowExpression_mismatch (read_operatorExpression_toMap h hcolon) rfl,
      hmisses .mergeExpression rfl, hmisses .emptyListExpression rfl, hform]
    rfl

/-- A list with elements begins with the same bracket as an empty one, but holds an expression. -/
theorem read_listLiteral_empty (s : List Char) :
    Rule.listLiteral.read ('[' :: ' ' :: ']' :: s) = .mismatch := by
  have hnone : (call .expression).read (']' :: s) = .mismatch := Rule.read_of_first .expression rfl
  have hopen : ∀ s, (expect "[").read ('[' :: s) = .value () s := fun _ => rfl
  have hspace : ∀ s, whitespace.read (' ' :: ']' :: s) = .value () (']' :: s) := fun _ => rfl
  have hcomma : ∀ s, (accept ",").read (']' :: s) = .value false (']' :: s) := fun _ => rfl
  rw [Rule.read_eq]
  simp only [Rule.body, listLiteral, readBy_bind, hopen, hspace, hcomma, Reading.bind_value,
    Bool.false_eq_true, if_false, readBy_pure, hnone, Reading.bind_mismatch]

theorem read_emptyListExpression (h : Writes a x) {t : List Char} (ht : EndsOperand t) :
    Rule.emptyListExpression.read ('[' :: ' ' :: ']' :: ' ' :: ':' :: ' ' ::
      (word "List " ++ (grouped a ++ t))) = .value (.emptyList x) t := by
  have helement : (call .importExpression).read (grouped a ++ t) = .value x t := h.read_import ht
  have hopen : ∀ s, (expect "[").read ('[' :: s) = .value () s := fun _ => rfl
  have hspace : ∀ s, whitespace.read (' ' :: ']' :: s) = .value () (']' :: s) := fun _ => rfl
  have hclose : ∀ s, (expect "]").read (']' :: s) = .value () s := fun _ => rfl
  have hcolon : colon.read (' ' :: ':' :: ' ' :: (word "List " ++ (grouped a ++ t))) =
      .value () (word "List " ++ (grouped a ++ t)) := rfl
  have hword : (keyword "List").read (word "List " ++ (grouped a ++ t)) =
      .value () (' ' :: (grouped a ++ t)) := rfl
  rw [Rule.read_eq]
  simp only [Rule.body, emptyListExpression, readBy_bind, hopen, hspace, hclose, hcolon, hword,
    readBy_whitespace1_space (tight_grouped a t), helement, Reading.bind_value, readBy_pure]

theorem writes_emptyList (h : Writes a x) :
    Writes (Rendering.behind "[ ] : List " a) (.emptyList x) where
  tight t := rfl
  read t ht := by
    have hshape : Rendering.behind "[ ] : List " a ++ t =
        '[' :: ' ' :: ']' :: ' ' :: ':' :: ' ' :: (word "List " ++ (grouped a ++ t)) := by
      simp [Rendering.behind, word]
    rw [hshape]
    have hmisses := Rule.read_of_head (by rfl : ('[' :: ' ' :: ']' :: ' ' :: ':' :: ' ' ::
      (word "List " ++ (grouped a ++ t))).head? = some '[')
    have hoperand : Rule.importExpression.read ('[' :: ' ' :: ']' :: ' ' :: ':' :: ' ' ::
        (word "List " ++ (grouped a ++ t))) = .mismatch := by
      refine read_importExpression_mismatch (hmisses .importClause rfl) ?_
      rw [read_primitiveExpression, hmisses .doubleLiteral rfl, hmisses .naturalLiteral rfl,
        hmisses .integerLiteral rfl, hmisses .textLiteral rfl, hmisses .recordExpression rfl,
        hmisses .unionType rfl, read_listLiteral_empty, hmisses .identifier rfl]
      rfl
    rw [read_expression, hmisses .lambdaExpression rfl, hmisses .ifExpression rfl,
      hmisses .letExpression rfl, hmisses .forallExpression rfl,
      read_arrowExpression_of_operand (noApplicationWord_of_first rfl) hoperand,
      hmisses .mergeExpression rfl, read_emptyListExpression h (endsOperand_of_closes ht)]
    rfl

/-! ## Definitions -/

/-- The type of a definition, from behind the space that follows the name. -/
theorem read_bindingType (h : Writes a x) (t : List Char) :
    bindingType.read (word ": " ++ (grouped a ++ (word " = " ++ t))) =
      .value (some x) (word "= " ++ t) := by
  have htype : (call .expression).read (grouped a ++ (word " = " ++ t)) =
      .value x (word " = " ++ t) :=
    h.read_expression (endsExpression_mark (by decide : '=' ∈ _) t)
  have hbegins : bindingType.read (word ": " ++ (grouped a ++ (word " = " ++ t))) =
      ((call .expression).read (grouped a ++ (word " = " ++ t))).bind fun type s =>
        (whitespace.read s).bind fun _ s => .value (some type) s := rfl
  rw [hbegins, htype]
  rfl

/-- A definition whose parts are read back. -/
structure WritesBinding (b : Binding String Expr) : Prop where
  name : IsLabel b.name
  annotation : ∀ type, b.annotation = some type → Writes (Rendering.chars type) type
  value : Writes (Rendering.chars b.value) b.value

/-- A definition, where a keyword follows it. -/
theorem WritesBinding.read {b : Binding String Expr} (h : WritesBinding b) {next : String}
    (hn : next ∈ ["in", "let"]) (r : List Char) :
    Rule.letBinding.read (Rendering.bindingsChars [b] ++ (next.toList ++ ' ' :: r)) =
      .value b (next.toList ++ ' ' :: r) := by
  obtain ⟨name, annotation, value⟩ := b
  have hvalue : (call .expression).read
      (grouped (Rendering.chars value) ++ ' ' :: (next.toList ++ ' ' :: r)) =
        .value value (' ' :: (next.toList ++ ' ' :: r)) :=
    h.value.read_expression (endsExpression_word ((by decide : ["in", "let"] ⊆ _) hn) r)
  have htight : Tight (next.toList ++ ' ' :: r) := by
    simp only [List.mem_cons, List.not_mem_nil, or_false] at hn
    obtain rfl | rfl := hn <;> rfl
  -- Behind the name there is an annotation or nothing; then the value follows.
  have hdefinition : ∀ behind : List Char, whitespace.read behind = .value () (behind.drop 1) →
      bindingType.read (behind.drop 1) = .value annotation (word "= " ++
        (grouped (Rendering.chars value) ++ ' ' :: (next.toList ++ ' ' :: r))) →
      Rule.letBinding.read (word "let " ++ (Rendering.label name ++ behind)) =
        .value { name, annotation, value } (next.toList ++ ' ' :: r) := by
    intro behind hspace hannotation
    have hlet : ∀ s, (keyword "let").read (word "let " ++ s) = .value () (' ' :: s) :=
      fun s => rfl
    have hlabel : (call .nonreservedLabel).read (Rendering.label name ++ behind) =
        .value name behind := read_nonreservedLabel h.name behind
    have hequals : ∀ s, (expect "=").read (word "= " ++ s) = .value () (' ' :: s) :=
      fun s => rfl
    rw [Rule.read_eq]
    simp only [Rule.body, letBinding, readBy_bind, hlet, Reading.bind_value,
      readBy_whitespace1_space (tight_label name _), hlabel, hspace, hannotation, hequals,
      readBy_whitespace_space (tight_grouped _ _), hvalue, readBy_whitespace_space htight,
      readBy_pure]
  cases annotation with
  | none =>
    have hshape : Rendering.bindingsChars [⟨name, none, value⟩] ++ (next.toList ++ ' ' :: r) =
        word "let " ++ (Rendering.label name ++ (word " = " ++
          (grouped (Rendering.chars value) ++ ' ' :: (next.toList ++ ' ' :: r)))) := by
      simp only [Rendering.bindingsChars, Rendering.definition, Rendering.optionChars,
        Rendering.annotation, List.append_assoc, List.nil_append, List.cons_append]
    rw [hshape]
    exact hdefinition _ rfl rfl
  | some type =>
    have hshape : Rendering.bindingsChars [⟨name, some type, value⟩] ++
        (next.toList ++ ' ' :: r) =
          word "let " ++ (Rendering.label name ++ (word " : " ++ (grouped (Rendering.chars type) ++
            (word " = " ++
              (grouped (Rendering.chars value) ++ ' ' :: (next.toList ++ ' ' :: r)))))) := by
      simp only [Rendering.bindingsChars, Rendering.definition, Rendering.optionChars,
        Rendering.annotation, List.append_assoc, List.nil_append, List.cons_append]
    rw [hshape]
    exact hdefinition _ rfl (read_bindingType (h.annotation type rfl) _)

theorem bindingsChars_cons (b : Binding String Expr) (rest : List (Binding String Expr)) :
    Rendering.bindingsChars (b :: rest) =
      Rendering.bindingsChars [b] ++ Rendering.bindingsChars rest := by
  simp only [Rendering.bindingsChars, List.append_nil]

/-- Definitions are followed by further ones, or by the body. -/
theorem bindingsChars_next (bindings : List (Binding String Expr)) (body t : List Char) :
    ∃ next ∈ ["in", "let"], ∃ r, Rendering.bindingsChars bindings ++
      (Rendering.behind "in " body ++ t) = next.toList ++ ' ' :: r := by
  cases bindings with
  | nil => exact ⟨"in", by decide, grouped body ++ t, rfl⟩
  | cons b rest =>
    refine ⟨"let", by decide, Rendering.label b.name ++ (Rendering.annotation
      (Rendering.optionChars b.annotation) ++ (word " = " ++ (grouped (Rendering.chars b.value) ++
        (' ' :: (Rendering.bindingsChars rest ++ (Rendering.behind "in " body ++ t)))))), ?_⟩
    have hlet : word "let " = "let".toList ++ [' '] := rfl
    simp only [Rendering.bindingsChars, Rendering.definition, hlet, List.append_assoc,
      List.nil_append, List.cons_append]

theorem folds_bindings {bindings : List (Binding String Expr)}
    (h : ∀ b ∈ bindings, WritesBinding b) (done : List (Binding String Expr))
    (body t : List Char) :
    Folds Rule.read (call .letBinding) (fun values value => value :: values) done
      (Rendering.bindingsChars bindings ++ (Rendering.behind "in " body ++ t))
      (.value (bindings.reverse ++ done) (Rendering.behind "in " body ++ t)) := by
  induction bindings generalizing done with
  | nil => exact .none _ _ (Rule.read_of_first .letBinding rfl)
  | cons b rest ih =>
    obtain ⟨hb, hrest⟩ := List.forall_mem_cons.mp h
    obtain ⟨next, hn, r, hr⟩ := bindingsChars_next rest body t
    have hread : (call .letBinding).read (Rendering.bindingsChars [b] ++
        (Rendering.bindingsChars rest ++ (Rendering.behind "in " body ++ t))) =
          .value b (Rendering.bindingsChars rest ++ (Rendering.behind "in " body ++ t)) := by
      rw [hr]
      exact hb.read hn r
    have hlater := ih hrest (b :: done)
    rw [bindingsChars_cons, List.append_assoc, List.reverse_cons, List.append_assoc,
      List.singleton_append]
    refine .some hread ?_ hlater
    have hlet : 0 < (Rendering.bindingsChars [b]).length := Nat.succ_pos _
    simp only [List.length_append]
    omega

theorem writes_letIn {bindings : List (Binding String Expr)} (hne : bindings ≠ [])
    (h : ∀ b ∈ bindings, WritesBinding b) (hbody : Writes a x) :
    Writes (Rendering.bindingsChars bindings ++ Rendering.behind "in " a)
      (.letIn bindings x) := by
  obtain ⟨b, rest, rfl⟩ := List.exists_cons_of_ne_nil hne
  refine ⟨fun t => rfl, fun t ht => ?_⟩
  obtain ⟨hb, hrest⟩ := List.forall_mem_cons.mp h
  obtain ⟨next, hn, r, hr⟩ := bindingsChars_next rest a t
  have hfirst : (call .letBinding).read (Rendering.bindingsChars [b] ++
      (Rendering.bindingsChars rest ++ (Rendering.behind "in " a ++ t))) =
        .value b (Rendering.bindingsChars rest ++ (Rendering.behind "in " a ++ t)) := by
    rw [hr]
    exact hb.read hn r
  have hfurther := readBy_many (folds_bindings hrest [] a t)
  have hin : (keyword "in").read (Rendering.behind "in " a ++ t) =
      .value () (' ' :: (grouped a ++ t)) := rfl
  have hexpression : (call .expression).read (grouped a ++ t) = .value x t :=
    hbody.read_expression ht.ends
  have hform : Rule.letExpression.read (Rendering.bindingsChars [b] ++
      (Rendering.bindingsChars rest ++ (Rendering.behind "in " a ++ t))) =
        .value (.letIn (b :: rest) x) t := by
    rw [Rule.read_eq]
    simp only [Rule.body, letExpression, readBy_bind, hfirst, hfurther, hin, hexpression,
      readBy_whitespace1_space (tight_grouped a t), Reading.bind_value, readBy_pure,
      List.append_nil, List.reverse_reverse]
  have hmisses := Rule.read_of_head (by rfl : (Rendering.bindingsChars [b] ++
    (Rendering.bindingsChars rest ++ (Rendering.behind "in " a ++ t))).head? = some 'l')
  rw [bindingsChars_cons, List.append_assoc, List.append_assoc, read_expression,
    hmisses .lambdaExpression rfl, hmisses .ifExpression rfl, hform]
  rfl

end DhallSyntax
