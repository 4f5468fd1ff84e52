import DhallSyntax.Proofs.Reading.Parse
import DhallSyntax.Proofs.Tree.ParsedParts
import DhallSyntax.Tree.Equality

/-!
The trees that come out of sources are well formed. Every rule yields what it should, if the rules
inside it do; all ways to write a node are covered by that. Main statement: `parsed_wellFormed`.
-/

namespace DhallSyntax

variable {rules : RuleReader} {M : ImportModel}

/-! ## Chains of operators -/

/-- A chain of well-formed operands. -/
structure Pending.Good (M : ImportModel) (chain : Pending Expr) : Prop where
  before : ∀ p ∈ chain.before, p.1.WellFormed M
  last : chain.last.WellFormed M

namespace Pending

theorem good_closeFrom (rank : Nat) (before : List (Expr × Operator)) (last : Expr)
    (hb : ∀ p ∈ before, p.1.WellFormed M) (hl : last.WellFormed M) :
    (closeFrom Tree.operation rank before last).Good M := by
  induction before generalizing last with
  | nil => exact ⟨hb, hl⟩
  | cons p before ih =>
    obtain ⟨hp, hrest⟩ := List.forall_mem_cons.mp hb
    unfold closeFrom
    split
    · exact ih _ hrest (.operation hp hl)
    · exact ⟨hb, hl⟩

theorem Good.push {chain : Pending Expr} (h : chain.Good M) (op : Operator) {right : Expr}
    (hr : right.WellFormed M) : (chain.push Tree.operation op right).Good M := by
  have hclosed := good_closeFrom op.precedence chain.before chain.last h.before h.last
  exact ⟨List.forall_mem_cons.mpr ⟨hclosed.last, hclosed.before⟩, hr⟩

theorem Good.close {chain : Pending Expr} (h : chain.Good M) :
    (chain.close Tree.operation).WellFormed M :=
  (good_closeFrom 0 chain.before chain.last h.before h.last).last

end Pending

/-- What is selected, as the data model says. -/
def Grammar.Selector.Good (M : ImportModel) : Grammar.Selector → Prop
  | .labels ls => ∀ l ∈ ls, IsLabel l
  | .type t => t.WellFormed M
  | .label l => IsLabel l

namespace Grammar

/-! ## Forms with a body -/

theorem yields_binder (hg : rules.Good M) :
    binder.Yields rules fun b => IsLabel b.1 ∧ b.2.WellFormed M :=
  .behind fun _ => .behind fun _ => .behind fun _ =>
    .bind (yields_call (hg .nonreservedLabel)) fun _ hname => .behind fun _ => .behind fun _ =>
      .behind fun _ => .bind (yields_call (hg .expression)) fun _ htype => .behind fun _ =>
        .behind fun _ => yields_pure ⟨hname, htype⟩

theorem yields_lambdaExpression (hg : rules.Good M) :
    lambdaExpression.Yields rules (Tree.WellFormed M) :=
  .behind fun _ => .bind (yields_binder hg) fun _ hb => .behind fun _ =>
    .bind (yields_call (hg .expression)) fun _ hbody => yields_pure (.lambda hb.1 hb.2 hbody)

theorem yields_ifExpression (hg : rules.Good M) :
    ifExpression.Yields rules (Tree.WellFormed M) :=
  .behind fun _ => .behind fun _ => .bind (yields_call (hg .expression)) fun _ hcondition =>
    .behind fun _ => .behind fun _ => .behind fun _ =>
      .bind (yields_call (hg .expression)) fun _ hyes =>
        .behind fun _ => .behind fun _ => .behind fun _ =>
          .bind (yields_call (hg .expression)) fun _ hno =>
            yields_pure (.conditional hcondition hyes hno)

theorem yields_bindingType (hg : rules.Good M) :
    bindingType.Yields rules fun type? => ∀ type, type? = some type → type.WellFormed M := by
  refine .behind fun annotated => ?_
  split
  · exact .behind fun _ => .bind (yields_call (hg .expression)) fun _ htype => .behind fun _ =>
      yields_pure fun _ he => Option.some.inj he ▸ htype
  · exact yields_pure fun _ he => nomatch he

theorem yields_letBinding (hg : rules.Good M) :
    letBinding.Yields rules (Binding.WellFormed M) :=
  .behind fun _ => .behind fun _ => .bind (yields_call (hg .nonreservedLabel)) fun _ hname =>
    .behind fun _ => .bind (yields_bindingType hg) fun _ hannotation => .behind fun _ =>
      .behind fun _ => .bind (yields_call (hg .expression)) fun _ hvalue => .behind fun _ =>
        yields_pure ⟨hname, hannotation, hvalue⟩

theorem yields_letExpression (hg : rules.Good M) :
    letExpression.Yields rules (Tree.WellFormed M) := by
  refine .bind (yields_call (hg .letBinding)) fun first hfirst =>
    .bind (Yields.many (yields_call (hg .letBinding))) fun rest hrest => .behind fun _ =>
      .behind fun _ => .bind (yields_call (hg .expression)) fun body hbody => yields_pure ?_
  have hall : ∀ b ∈ first :: rest, Binding.WellFormed M b :=
    List.forall_mem_cons.mpr ⟨hfirst, hrest⟩
  exact .letIn (List.cons_ne_nil _ _) (fun b hb => (hall b hb).name)
    (fun b hb => Binding.WellFormed.annotation (hall b hb)) (fun b hb => (hall b hb).value) hbody

theorem yields_forallExpression (hg : rules.Good M) :
    forallExpression.Yields rules (Tree.WellFormed M) := by
  refine .behind fun sign => ?_
  split
  · exact .bind (yields_binder hg) fun _ hb => .behind fun _ =>
      .bind (yields_call (hg .expression)) fun _ hbody => yields_pure (.pi hb.1 hb.2 hbody)
  · exact .behind fun _ => .bind (yields_binder hg) fun _ hb => .behind fun _ =>
      .bind (yields_call (hg .expression)) fun _ hbody => yields_pure (.pi hb.1 hb.2 hbody)

theorem yields_arrowExpression (hg : rules.Good M) :
    arrowExpression.Yields rules (Tree.WellFormed M) :=
  .bind (yields_call (hg .operatorExpression)) fun _ hdomain => .behind fun _ =>
    .bind (yields_call (hg .expression)) fun _ hbody =>
      yields_pure (.pi (by decide) hdomain hbody)

theorem some_wellFormed {type t : Expr} (h : type.WellFormed M) (he : some type = some t) :
    t.WellFormed M :=
  Option.some.inj he ▸ h

theorem yields_mergeExpression (hg : rules.Good M) :
    mergeExpression.Yields rules (Tree.WellFormed M) :=
  .behind fun _ => .behind fun _ => .bind (yields_call (hg .importExpression)) fun _ hhandler =>
    .behind fun _ => .bind (yields_call (hg .importExpression)) fun _ hunion => .behind fun _ =>
      .bind (yields_call (hg .applicationExpression)) fun _ htype =>
        yields_pure (.merge hhandler hunion fun _ he => some_wellFormed htype he)

theorem yields_emptyListExpression (hg : rules.Good M) :
    emptyListExpression.Yields rules (Tree.WellFormed M) :=
  .behind fun _ => .behind fun _ => .behind fun _ => .behind fun _ => .behind fun _ =>
    .behind fun _ => .bind (yields_call (hg .importExpression)) fun _ helement =>
      yields_pure (.emptyList helement)

theorem yields_toMapExpression (hg : rules.Good M) :
    toMapExpression.Yields rules (Tree.WellFormed M) :=
  .behind fun _ => .behind fun _ => .bind (yields_call (hg .importExpression)) fun _ hrecord =>
    .behind fun _ => .bind (yields_call (hg .applicationExpression)) fun _ htype =>
      yields_pure (.toMap hrecord fun _ he => some_wellFormed htype he)

theorem yields_annotatedExpression (hg : rules.Good M) :
    annotatedExpression.Yields rules (Tree.WellFormed M) := by
  refine .bind (yields_call (hg .operatorExpression)) fun subject hsubject =>
    .bind (Yields.optional? (.behind fun _ => yields_call (hg .expression))) fun type? htype => ?_
  cases type? with
  | none => exact yields_pure hsubject
  | some type => exact yields_pure (.annotated hsubject (htype type rfl))

theorem yields_expression (hg : rules.Good M) :
    expression.Yields rules (Tree.WellFormed M) := by
  refine Yields.nested (.choice ?_)
  simp only [List.forall_mem_cons]
  exact ⟨yields_call (hg .lambdaExpression), yields_call (hg .ifExpression),
    yields_call (hg .letExpression), yields_call (hg .forallExpression),
    yields_call (hg .arrowExpression), yields_call (hg .mergeExpression),
    yields_call (hg .emptyListExpression), yields_call (hg .toMapExpression),
    yields_call (hg .annotatedExpression), fun _ h => nomatch h⟩

/-! ## Operators, application and selection -/

theorem yields_operatorExpression (hg : rules.Good M) :
    operatorExpression.Yields rules (Tree.WellFormed M) := by
  have htail : operatorTail.Yields rules fun tail => tail.2.WellFormed M :=
    .behind fun _ => .bind (yields_call (hg .applicationExpression)) fun _ h => yields_pure h
  refine .bind (yields_call (hg .applicationExpression)) fun first hfirst =>
    .bind (.foldMany (P := Pending.Good M) htail ⟨nofun, hfirst⟩ ?_)
      fun chain hchain => yields_pure hchain.close
  intro chain tail hchain hright
  exact hchain.push tail.1 hright

theorem yields_applicationExpression (hg : rules.Good M) :
    applicationExpression.Yields rules (Tree.WellFormed M) := by
  refine .bind (yields_call (hg .firstApplicationExpression)) fun function hfunction =>
    .foldMany (Q := Tree.WellFormed M) (.behind fun _ => yields_call (hg .importExpression))
      hfunction ?_
  intro f a hf ha
  exact .app hf ha

theorem yields_firstApplicationExpression (hg : rules.Good M) :
    firstApplicationExpression.Yields rules (Tree.WellFormed M) := by
  have hmerge : mergeApplication.Yields rules (Tree.WellFormed M) :=
    .behind fun _ => .behind fun _ => .bind (yields_call (hg .importExpression)) fun _ hhandler =>
      .behind fun _ => .bind (yields_call (hg .importExpression)) fun _ hunion =>
        yields_pure (.merge hhandler hunion fun _ he => nomatch he)
  have hsome : someApplication.Yields rules (Tree.WellFormed M) :=
    .behind fun _ => .behind fun _ => .bind (yields_call (hg .importExpression)) fun _ hvalue =>
      yields_pure (.present hvalue)
  have htoMap : toMapApplication.Yields rules (Tree.WellFormed M) :=
    .behind fun _ => .behind fun _ => .bind (yields_call (hg .importExpression)) fun _ hrecord =>
      yields_pure (.toMap hrecord fun _ he => nomatch he)
  refine .choice ?_
  simp only [List.forall_mem_cons]
  exact ⟨hmerge, hsome, htoMap, yields_call (hg .importExpression), fun _ h => nomatch h⟩

theorem yields_importExpression (hg : rules.Good M) :
    importExpression.Yields rules (Tree.WellFormed M) := by
  refine .choice ?_
  simp only [List.forall_mem_cons]
  exact ⟨.bind (yields_call (hg .importClause)) fun _ h => yields_pure (.embedded h),
    yields_call (hg .selectorExpression), fun _ h => nomatch h⟩

theorem yields_projectionLabels (hg : rules.Good M) :
    projectionLabels.Yields rules fun ls => ∀ l ∈ ls, IsLabel l := by
  have hlabels : ∀ labels : List String, (∀ l ∈ labels, IsLabel l) →
      (do
        if (← peek) == some '}' then return .inr labels
        else
          let labels := (← call .label) :: labels
          whitespace
          if ← accept "," then
            whitespace
            return .inl labels
          else
            return .inr labels : Grammar (List String ⊕ List String)).Yields rules
        (Sum.elim (fun ls => ∀ l ∈ ls, IsLabel l) fun ls => ∀ l ∈ ls, IsLabel l) := by
    intro labels h
    refine .behind fun c? => ?_
    split
    · exact yields_pure h
    · refine .bind (yields_call (hg .label)) fun label hlabel => .behind fun _ =>
        .behind fun comma => ?_
      have hall := List.forall_mem_cons.mpr ⟨hlabel, h⟩
      split
      · exact .behind fun _ => yields_pure hall
      · exact yields_pure hall
  have hiterate := Yields.iterate _ (List.forall_mem_nil IsLabel) hlabels
  refine .behind fun _ => .behind fun comma => ?_
  split
  · exact .behind fun _ => .bind hiterate fun _ h => .behind fun _ =>
      yields_pure fun l hl => h l (List.mem_reverse.mp hl)
  · exact .bind hiterate fun _ h => .behind fun _ =>
      yields_pure fun l hl => h l (List.mem_reverse.mp hl)

theorem yields_selector (hg : rules.Good M) : selector.Yields rules (Selector.Good M) := by
  refine .behind fun _ => .behind fun _ => .behind fun _ => .behind fun brace => ?_
  split
  · exact .bind (yields_projectionLabels hg) fun _ h => yields_pure h
  refine .behind fun parenthesis => ?_
  split
  · exact .bind (yields_completeExpression hg) fun _ h => .behind fun _ => yields_pure h
  · exact .bind (yields_call (hg .label)) fun _ h => yields_pure h

theorem Selector.Good.apply {record : Expr} {s : Selector} (h : s.Good M)
    (hr : record.WellFormed M) : (s.apply record).WellFormed M := by
  cases s with
  | labels ls => exact .projection hr h
  | type t => exact .projectionByType hr h
  | label l => exact .field hr h

theorem yields_selectorExpression (hg : rules.Good M) :
    selectorExpression.Yields rules (Tree.WellFormed M) :=
  .bind (yields_call (hg .primitiveExpression)) fun _ hrecord =>
    .foldMany (yields_selector hg) hrecord fun _ _ hr h => h.apply hr

/-! ## Primitive expressions -/

theorem yields_primitiveExpression (hg : rules.Good M) :
    primitiveExpression.Yields rules (Tree.WellFormed M) := by
  have hparenthesized : parenthesized.Yields rules (Tree.WellFormed M) :=
    .behind fun _ => .bind (yields_completeExpression hg) fun _ h => .behind fun _ =>
      yields_pure h
  refine .choice ?_
  simp only [List.forall_mem_cons]
  exact ⟨.bind (yields_call (hg .doubleLiteral)) fun _ h => yields_pure (.double h),
    .behind fun _ => yields_pure (.natural (Int.natCast_nonneg _)),
    .behind fun n => yields_pure (.integer n), yields_call (hg .textLiteral),
    yields_call (hg .recordExpression), yields_call (hg .unionType), yields_call (hg .listLiteral),
    yields_call (hg .identifier), hparenthesized, fun _ h => nomatch h⟩

theorem yields_recordEntry (hg : rules.Good M) (separators : List String) :
    (recordEntry separators).Yields rules fun entry =>
      IsLabel entry.1 ∧ entry.2.2.WellFormed M := by
  refine .bind (yields_call (hg .label)) fun label hlabel => .behind fun _ =>
    .behind fun separator => ?_
  split
  · exact .behind fun _ => .bind (yields_call (hg .expression)) fun _ hvalue =>
      yields_pure ⟨hlabel, hvalue⟩
  · exact .behind fun _ => .bind (yields_call (hg .expression)) fun _ hvalue =>
      yields_pure ⟨hlabel, hvalue⟩

theorem yields_furtherEntries {α : Type} {P : α → Prop} (mark : String) (closing : Char)
    {entry : Grammar α} (h : entry.Yields rules P) :
    (furtherEntries mark closing entry).Yields rules fun entries => ∀ a ∈ entries, P a := by
  refine .bind (Q := fun entries => ∀ a ∈ entries, P a)
    (.iterate (fun entries : List α => ∀ a ∈ entries, P a) (List.forall_mem_nil P) ?_)
    fun entries hall => yields_pure fun a ha => hall a (List.mem_reverse.mp ha)
  intro entries hall
  refine .behind fun _ => .behind fun marked => ?_
  split
  · refine .behind fun _ => .behind fun c? => ?_
    split
    · exact yields_pure hall
    · exact .bind h fun _ ha => yields_pure (List.forall_mem_cons.mpr ⟨ha, hall⟩)
  · exact yields_pure hall

/-- An entry of a record: it has a value. -/
def EntryGood (M : ImportModel) (entry : String × Option Expr) : Prop :=
  IsLabel entry.1 ∧ entry.2 ≠ none ∧ ∀ value, entry.2 = some value → value.WellFormed M

theorem entryGood {entry : String × String × Expr}
    (h : IsLabel entry.1 ∧ entry.2.2.WellFormed M) : EntryGood M (entry.1, some entry.2.2) :=
  ⟨h.1, nofun, fun _ he => some_wellFormed h.2 he⟩

theorem yields_recordEntries (hg : rules.Good M) :
    recordEntries.Yields rules (Tree.WellFormed M) := by
  refine .bind (yields_recordEntry hg _) fun first hfirst =>
    .bind (yields_furtherEntries (P := EntryGood M) _ _ (.bind (yields_recordEntry hg _)
      fun entry h => yields_pure (entryGood h))) fun rest hrest => .behind fun _ => ?_
  have hall := List.forall_mem_cons.mpr ⟨entryGood hfirst, hrest⟩
  split
  · exact yields_pure (.recordType (List.cons_ne_nil _ _) (fun f hf => (hall f hf).1)
      (fun f hf => (hall f hf).2.1) fun f hf => (hall f hf).2.2)
  · exact yields_pure (.record (fun f hf => (hall f hf).1) (fun f hf => (hall f hf).2.1)
      fun f hf => (hall f hf).2.2)

theorem yields_recordExpression (hg : rules.Good M) :
    recordExpression.Yields rules (Tree.WellFormed M) := by
  have hempty : (Tree.record [] : Expr).WellFormed M :=
    .record (fun _ h => nomatch h) (fun _ h => nomatch h) fun _ h => nomatch h
  have hrest : (do
      if ← accept "=" then
        whitespace
        if ← accept "," then whitespace
        expect "\x7d"
        return .record []
      else if ← accept "\x7d" then
        return .record []
      else
        recordEntries : Grammar Expr).Yields rules (Tree.WellFormed M) := by
    refine .behind fun equals => ?_
    split
    · refine .behind fun _ => .behind fun comma => ?_
      split
      · exact .behind fun _ => .behind fun _ => yields_pure hempty
      · exact .behind fun _ => yields_pure hempty
    refine .behind fun brace => ?_
    split
    · exact yields_pure hempty
    · exact yields_recordEntries hg
  refine .behind fun _ => .behind fun _ => .behind fun comma => ?_
  split
  · exact .behind fun _ => hrest
  · exact hrest

theorem yields_unionAlternatives (hg : rules.Good M) :
    unionAlternatives.Yields rules fun alternatives => ∀ a ∈ alternatives,
      IsLabel a.1 ∧ ∀ type, a.2 = some type → type.WellFormed M := by
  have halternative : unionAlternative.Yields rules fun a =>
      IsLabel a.1 ∧ ∀ type, a.2 = some type → type.WellFormed M :=
    .bind (yields_call (hg .label)) fun _ hlabel =>
      .bind (Yields.optional? (.behind fun _ => yields_call (hg .expression))) fun _ htype =>
        yields_pure ⟨hlabel, htype⟩
  refine .behind fun c? => ?_
  split
  · exact yields_pure fun _ h => nomatch h
  · exact .bind halternative fun _ hfirst =>
      .bind (yields_furtherEntries _ _ halternative) fun _ hrest =>
        yields_pure (List.forall_mem_cons.mpr ⟨hfirst, hrest⟩)

theorem yields_unionType (hg : rules.Good M) :
    unionType.Yields rules (Tree.WellFormed M) := by
  have hrest : (do
      let alternatives ← unionAlternatives
      expect ">"
      return .union alternatives : Grammar Expr).Yields rules (Tree.WellFormed M) :=
    .bind (yields_unionAlternatives hg) fun _ h => .behind fun _ =>
      yields_pure (.union (fun a ha => (h a ha).1) fun a ha => (h a ha).2)
  refine .behind fun _ => .behind fun _ => .behind fun bar => ?_
  split
  · exact .behind fun _ => hrest
  · exact hrest

theorem yields_listLiteral (hg : rules.Good M) :
    listLiteral.Yields rules (Tree.WellFormed M) := by
  have hrest : (do
      let first ← call .expression
      let rest ← furtherEntries "," ']' (call .expression)
      expect "]"
      return .list (first :: rest) : Grammar Expr).Yields rules (Tree.WellFormed M) :=
    .bind (yields_call (hg .expression)) fun _ hfirst =>
      .bind (yields_furtherEntries _ _ (yields_call (hg .expression))) fun _ hrest =>
        .behind fun _ => yields_pure
          (.list (List.cons_ne_nil _ _) (List.forall_mem_cons.mpr ⟨hfirst, hrest⟩))
  refine .behind fun _ => .behind fun _ => .behind fun comma => ?_
  split
  · exact .behind fun _ => hrest
  · exact hrest

/-! ## Rules and parses -/

/-- A rule yields what it should if the rules inside it do. -/
theorem yields_body (hM : M.Yielded) (hg : rules.Good M) (rule : Rule) :
    rule.body.Yields rules (rule.Good M) := by
  cases rule with
  | doubleLiteral => exact yields_doubleLiteral
  | naturalLiteral => exact .any _
  | integerLiteral => exact .any _
  | label => exact yields_labelExcept _ _
  | nonreservedLabel => exact yields_labelExcept _ _
  | identifier => exact yields_identifier hg
  | textLiteral =>
    refine .choice ?_
    simp only [List.forall_mem_cons]
    exact ⟨yields_call (hg .doubleQuoteLiteral), yields_call (hg .singleQuoteLiteral),
      fun _ h => nomatch h⟩
  | doubleQuoteLiteral =>
    exact .behind fun _ => .iterate _ TextDraft.good_empty (yields_doubleQuoteStep hg)
  | singleQuoteLiteral =>
    exact .behind fun _ => .behind fun _ =>
      .iterate _ TextDraft.good_empty (yields_singleQuoteStep hg)
  | importClause => exact yields_importClause hg
  | importHashed => exact yields_importHashed hg
  | importType => exact yields_importType hg
  | localImport => exact yields_localImport hM
  | httpImport => exact yields_httpImport hM hg
  | envImport => exact yields_envImport hM
  | expression => exact yields_expression hg
  | lambdaExpression => exact yields_lambdaExpression hg
  | ifExpression => exact yields_ifExpression hg
  | letExpression => exact yields_letExpression hg
  | letBinding => exact yields_letBinding hg
  | forallExpression => exact yields_forallExpression hg
  | arrowExpression => exact yields_arrowExpression hg
  | mergeExpression => exact yields_mergeExpression hg
  | emptyListExpression => exact yields_emptyListExpression hg
  | toMapExpression => exact yields_toMapExpression hg
  | annotatedExpression => exact yields_annotatedExpression hg
  | operatorExpression => exact yields_operatorExpression hg
  | applicationExpression => exact yields_applicationExpression hg
  | firstApplicationExpression => exact yields_firstApplicationExpression hg
  | importExpression => exact yields_importExpression hg
  | selectorExpression => exact yields_selectorExpression hg
  | primitiveExpression => exact yields_primitiveExpression hg
  | recordExpression => exact yields_recordExpression hg
  | unionType => exact yields_unionType hg
  | listLiteral => exact yields_listLiteral hg

end Grammar

theorem Rule.read_good (hM : M.Yielded) : RuleReader.Good Rule.read M := by
  intro rule s
  refine Rule.read_induction (P := fun rule s r => ∀ a t, r = .value a t → rule.Good M a)
    (fun _ _ _ _ h => nomatch h) ?_ rule s
  intro rules hg rule s
  exact Grammar.yields_body hM hg rule s

/-- Every tree that a parse of a source yields is as any such model says. -/
theorem parse_wellFormed (hM : M.Yielded) {settings : Settings} {source : String} {e : Expr}
    (h : parse settings source = .ok e) : e.WellFormed M :=
  Grammar.yields_completeExpression (Rule.read_good hM) _ _ _ (parse_ok h)

/-- Every tree that a parse of a source, or of its beginning, yields is well formed. -/
theorem parsed_wellFormed (settings : Settings) (source : String) :
    (∀ e, parse settings source = .ok e → e.WellFormed .parsed) ∧
      ∀ p, parsePrefix settings source = .ok p → p.expression.WellFormed .parsed := by
  constructor
  · intro e h
    exact parse_wellFormed .parsed h
  · intro p h
    obtain ⟨rest, hr⟩ := parsePrefix_ok h
    have hleading : Grammar.leadingExpression.Yields Rule.read (Tree.WellFormed .parsed) :=
      .behind fun _ => Grammar.yields_call (Rule.read_good .parsed .expression)
    exact hleading _ _ _ hr

/-- A list with a quoted label and a quoted path, and a text with something behind it. -/
theorem parsed_wellFormed_quoted :
    (parse ⟨some 4, true, 200⟩ "[ `a b`@1, /\"c d\" ]" = .ok (.list
        [.variable "a b" 1, .embedded (.mk (.path .absolute ["c d"]) none .code)]) ∧
      Tree.WellFormed .parsed (.list
        [.variable "a b" 1, .embedded (.mk (.path .absolute ["c d"]) none .code)])) ∧
      ∃ p, parsePrefix ⟨some 4, true, 200⟩ "\"$\x7bx\x7d\" )" = .ok p ∧
        p.expression = .text [("", .variable "x" 0)] "" ∧ p.expression.WellFormed .parsed := by
  have h : parse ⟨some 4, true, 200⟩ "[ `a b`@1, /\"c d\" ]" = .ok (.list
      [.variable "a b" 1, .embedded (.mk (.path .absolute ["c d"]) none .code)]) :=
    eq_ok_of_toOption (by decide +kernel)
  have hp : (parsePrefix ⟨some 4, true, 200⟩ "\"$\x7bx\x7d\" )").map Prefix.expression =
      .ok (.text [("", .variable "x" 0)] "") :=
    eq_ok_of_toOption (by decide +kernel)
  refine ⟨⟨h, (parsed_wellFormed _ _).1 _ h⟩, ?_⟩
  cases hq : parsePrefix ⟨some 4, true, 200⟩ "\"$\x7bx\x7d\" )" with
  | error e => rw [hq] at hp; cases hp
  | ok p =>
    rw [hq] at hp
    exact ⟨p, rfl, Except.ok.inj hp, (parsed_wellFormed _ _).2 p hq⟩

end DhallSyntax
