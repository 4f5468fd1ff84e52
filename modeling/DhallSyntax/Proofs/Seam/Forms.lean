import DhallSyntax.Proofs.Seam.Apart

/-!
The forms of expressions in front of a seam. Each of them carries over if the rules in it do, and an
expression does because its alternatives are apart. Main statements:

* `Seam.carries_letExpression` and its like: a form carries over where nothing goes on with it;
* `Seam.carries_expression`: an expression carries over if its forms do.
-/

namespace DhallSyntax

open CharClass Grammar

variable {α β : Type}

namespace Seam

variable {T : Seam} {n m : Nat} {u v w x y z : List Char}

/-! ## Functions -/

theorem carries_arrow : T.Carries n (fun _ => Token) arrow := by
  have hall : ∀ spelling ∈ Vocabulary.arrowSpellings, Unbroken spelling.toList ∧
      spelling.toList.head?.any (· != '\r') = true := by decide
  apply Carries.spaced (.front (leads_token_expectAny fun s hs => (hall s hs).2))
  exact .andThen (carries_expectAny fun s hs => (hall s hs).1) fun _ =>
    carries_whitespace fun _ h => h

/-- An arrow ends the chain of operators in front of it. -/
theorem leads_arrow {next : Unit → Grammar α} {E : α → List Char → Prop} :
    T.Leads n E T.EndsOperation (arrow >>= next) := by
  intro x a y hl _
  obtain ⟨_, w, harrow, -⟩ := hl.bind
  obtain ⟨_, u, hspace, harrow⟩ := Lands.bind harrow
  obtain ⟨spelling, v, hspelling, -⟩ := Lands.bind harrow
  obtain ⟨hm, rfl⟩ := lands_expectAny hspelling
  exact (stopsOperation_arrow hm).ends hspace

section Functions

variable (hlabel : T.Carries n (fun _ _ => True) (call .nonreservedLabel))
  (hexpr : T.Carries n (fun _ => T.EndsExpression) (call .expression))

include hlabel hexpr in
theorem carries_binder {E : String × Expr → List Char → Prop} : T.Carries n E binder := by
  apply Carries.spaced (.front (leads_token_expect (by decide)))
  apply Carries.andThen (carries_expect (by decide))
  intro _
  apply Carries.spaced (.front (leads_token_call .nonreservedLabel (by decide)))
  apply Carries.andThen hlabel
  intro name
  apply Carries.spaced (.front (leads_token_expect (by decide)))
  apply Carries.andThen (carries_expect (by decide))
  intro _
  apply Carries.spaced1 (.front (leads_token_call .expression (by decide)))
  apply Carries.bind hexpr
  · exact fun _ => leads_ends (.front (leads_stops_expect (by decide)))
  · intro type
    apply Carries.spaced (.front (leads_token_expect (by decide)))
    exact .andThen (carries_expect (by decide)) fun _ => .pure _

include hexpr in
/-- An arrow and what is behind it. -/
theorem carries_result (f : Expr → Expr) :
    T.Carries n (fun _ => T.EndsExpression) (do arrow; return f (← call .expression)) := by
  refine Carries.bind carries_arrow
    (fun _ => .front (leads_token_call .expression (by decide))) fun _ => ?_
  exact Carries.bind hexpr (fun _ => .pure fun _ h => h) fun _ => .pure _

include hlabel hexpr in
/-- A binder, an arrow and what is behind it. -/
theorem carries_bound (f : String → Expr → Expr → Expr) :
    T.Carries n (fun _ => T.EndsExpression) (do
      let (param, domain) ← binder
      arrow
      return f param domain (← call .expression)) := by
  apply Carries.andThen (carries_binder hlabel hexpr)
  rintro ⟨param, domain⟩
  exact carries_result hexpr (f param domain)

include hlabel hexpr in
theorem carries_lambdaExpression : T.Carries n (fun _ => T.EndsExpression) lambdaExpression :=
  .andThen (carries_expectAny (by decide)) fun _ => carries_bound hlabel hexpr Tree.lambda

include hlabel hexpr in
theorem carries_forallExpression : T.Carries n (fun _ => T.EndsExpression) forallExpression := by
  have hrest := carries_bound hlabel hexpr Tree.pi
  refine .andThen (carries_accept (by decide)) fun b => ?_
  cases b
  · exact .andThen (carries_keyword _) fun _ => hrest
  · exact hrest

include hexpr in
theorem carries_arrowExpression
    (hoperator : T.Carries n (fun _ => T.EndsOperation) (call .operatorExpression)) :
    T.Carries n (fun _ => T.EndsExpression) arrowExpression :=
  Carries.bind hoperator (fun _ => leads_arrow) fun domain => carries_result hexpr (Tree.pi "_" domain)

end Functions

/-! ## Conditionals and definitions -/

theorem leads_stops_keyword {word : String} (hw : word ∈ ["then", "else", "in", "let"])
    {E : Unit → List Char → Prop} : T.Leads n E T.StopsExpression (keyword word) :=
  leads_keyword fun _ hy _ => stopsExpression_keyword hw hy

section Bodies

variable (hexpr : T.Carries n (fun _ => T.EndsExpression) (call .expression))

include hexpr

/-- A word, and an expression up to the end. -/
theorem carries_behindWord (f : Expr → Expr) :
    T.Carries n (fun _ => T.EndsExpression) (do whitespace1; return f (← call .expression)) := by
  apply Carries.spaced1 (.front (leads_token_call .expression (by decide)))
  exact Carries.bind hexpr (fun _ => .pure fun _ h => h) fun _ => .pure _

theorem carries_ifExpression : T.Carries n (fun _ => T.EndsExpression) ifExpression := by
  apply Carries.andThen (carries_keyword _)
  intro _
  apply Carries.spaced1 (.front (leads_token_call .expression (by decide)))
  apply Carries.bind hexpr
  · exact fun _ => leads_ends (.front (leads_stops_keyword (by decide)))
  intro condition
  apply Carries.spaced (.front (leads_token_keyword (by decide)))
  apply Carries.andThen (carries_keyword _)
  intro _
  apply Carries.spaced1 (.front (leads_token_call .expression (by decide)))
  apply Carries.bind hexpr
  · exact fun _ => leads_ends (.front (leads_stops_keyword (by decide)))
  intro yes
  apply Carries.spaced (.front (leads_token_keyword (by decide)))
  apply Carries.andThen (carries_keyword _)
  intro _
  exact carries_behindWord hexpr (Tree.conditional condition yes)

omit hexpr in
/-- The equals sign of a definition ends the type in front of it. -/
theorem leads_equals {next : Expr → Grammar α} {E : α → List Char → Prop} :
    T.Leads n E T.StopsExpression (do
      expect "="
      whitespace
      let value ← call .expression
      next value) := by
  intro x a y hl _
  obtain ⟨_, u, hequals, h⟩ := Lands.bind hl
  obtain rfl := lands_expect hequals
  clear hl
  obtain ⟨_, v, hspace, h⟩ := Lands.bind h
  obtain ⟨value, z, hvalue, -⟩ := Lands.bind h
  obtain ⟨c, t, rfl, hc⟩ := hvalue.first
  have hne : ∀ d, Rule.expression.first d = false → d ≠ c := by
    rintro d hd rfl
    exact Bool.false_ne_true (hd.symm.trans hc)
  have htoken : Token (c :: t) := ⟨c, t, rfl, (hne '\r' (by decide)).symm⟩
  obtain ⟨rfl, -⟩ | ⟨-, d, s, rfl, hd⟩ := whitespace_head hspace htoken
  · exact stopsExpression_mark (by decide) (hne '=' (by decide)).symm
  · refine stopsExpression_mark (by decide) ?_
    rintro rfl
    cases hd

theorem carries_bindingType : T.Carries n (fun _ => T.StopsExpression) bindingType ∧
    T.Leads n (fun _ => T.StopsExpression) Token bindingType := by
  have htype : T.Carries n (fun _ => T.StopsExpression) (do
      whitespace1
      let type ← call .expression
      whitespace
      return some type) := by
    apply Carries.spaced1 (.front (leads_token_call .expression (by decide)))
    refine Carries.bind hexpr (fun _ => leads_ends (.pure fun _ h => h)) fun type => ?_
    exact Carries.spaced (.pure fun _ h => h.token) (.pure _)
  constructor
  · exact .andThen (carries_accept (by decide)) fun _ => .ite (fun _ => htype) fun _ => .pure _
  · exact leads_token_accept (by decide) (.pure fun _ h => h.token)

theorem carries_letBinding (hlabel : T.Carries n (fun _ _ => True) (call .nonreservedLabel)) :
    T.Carries n (fun _ => T.StopsExpression) letBinding := by
  obtain ⟨htype, htoken⟩ := carries_bindingType hexpr
  apply Carries.andThen (carries_keyword _)
  intro _
  apply Carries.spaced1 (.front (leads_token_call .nonreservedLabel (by decide)))
  apply Carries.andThen hlabel
  intro name
  apply Carries.spaced (Leads.bind htoken fun _ => leads_equals)
  refine Carries.bind htype (fun _ => leads_equals) fun annotation => ?_
  apply Carries.andThen (carries_expect (by decide))
  intro _
  apply Carries.spaced (.front (leads_token_call .expression (by decide)))
  refine Carries.bind hexpr (fun _ => leads_ends (.pure fun _ h => h)) fun value => ?_
  exact Carries.spaced (.pure fun _ h => h.token) (.pure _)

theorem carries_letExpression (hbinding : T.Carries n (fun _ => T.StopsExpression) (call .letBinding)) :
    T.Carries n (fun _ => T.EndsExpression) letExpression := by
  -- Behind the definitions is the word in front of the body.
  have hlead : ∀ {E : Binding String Expr → List Char → Prop},
      T.Leads n E T.StopsExpression (call .letBinding) :=
    Leads.call .letBinding (.front (leads_stops_keyword (by decide)))
  have hshort : ∀ x a z, T.Lands n (call .letBinding) x a z → z.length < x.length :=
    fun x a z h => h.call_ne_nil
  have hlast : ∀ (_ : List (Binding String Expr)) x,
      (∃ t, x = "in".toList ++ t ∧ (T.was t).head?.any labelContinue = false) →
        T.StopsExpression x ∧ T.Ready (call .letBinding) x := by
    rintro _ x ⟨t, rfl, ht⟩
    exact ⟨stopsExpression_keyword (by decide) ht,
      fun _ _ => misses_head Rule.opens_letBinding (by decide)⟩
  have hword : ∀ {E : Unit → List Char → Prop}, T.Leads n E
      (fun x => ∃ t, x = "in".toList ++ t ∧ (T.was t).head?.any labelContinue = false)
      (keyword "in") := leads_keyword fun y hy _ => ⟨y, rfl, hy⟩
  refine Carries.bind hbinding (fun first => ?_) fun first => ?_
  · exact Leads.bind (Leads.many hbinding hlead hshort hlast) fun _ => .front hword
  · refine Carries.bind (Carries.many hbinding hlead hshort hlast) (fun _ => .front hword) fun rest => ?_
    exact .andThen (carries_keyword _) fun _ => carries_behindWord hexpr (Tree.letIn (first :: rest))

end Bodies

/-! ## What has a type -/

section Typed

variable (hoperand : T.Carries n (fun _ => T.EndsOperand) (call .importExpression))
  (happlication : T.Carries n (fun _ => T.EndsApplication) (call .applicationExpression))

include happlication in
theorem carries_applicationType (f : Expr → Expr) :
    T.Carries n (fun _ => T.EndsExpression) (do colon; return f (← call .applicationExpression)) := by
  apply Carries.typed (.front (leads_token_call .applicationExpression (by decide)))
  exact Carries.bind happlication (fun _ => .pure fun _ h => h.toEndsApplication) fun _ => .pure _

theorem leads_applicationType (f : Expr → Expr) {E : Expr → List Char → Prop} :
    T.Leads n E T.EndsOperand (do colon; return f (← call .applicationExpression)) :=
  (leads_colon (.front (leads_token_call .applicationExpression (by decide)))).mono
    (fun _ _ h => h) fun _ h => h.toEndsOperand

include hoperand happlication in
theorem carries_mergeExpression : T.Carries n (fun _ => T.EndsExpression) mergeExpression := by
  apply Carries.andThen (carries_keyword _)
  intro _
  apply carries_argument hoperand
  · intro handler
    exact leads_argument fun union => leads_applicationType fun type => .merge handler union (some type)
  · intro handler
    apply carries_argument hoperand
    · exact fun union => leads_applicationType fun type => .merge handler union (some type)
    · exact fun union => carries_applicationType happlication fun type => .merge handler union (some type)

include hoperand happlication in
theorem carries_toMapExpression : T.Carries n (fun _ => T.EndsExpression) toMapExpression := by
  apply Carries.andThen (carries_keyword _)
  intro _
  apply carries_argument hoperand
  · exact fun record => leads_applicationType fun type => .toMap record (some type)
  · exact fun record => carries_applicationType happlication fun type => .toMap record (some type)

include hoperand in
theorem carries_emptyListExpression :
    T.Carries n (fun _ => T.EndsExpression) emptyListExpression := by
  apply Carries.andThen (carries_expect (by decide))
  intro _
  apply Carries.spaced (.front (leads_token_expect (by decide)))
  apply Carries.andThen (carries_expect (by decide))
  intro _
  apply Carries.typed (.front (leads_token_keyword (by decide)))
  apply Carries.andThen (carries_keyword _)
  intro _
  exact carries_argument hoperand (fun _ => .pure fun _ h => h.toEndsOperand) fun _ => .pure _

end Typed

theorem carries_annotatedExpression
    (hexpr : T.Carries n (fun _ => T.EndsExpression) (call .expression))
    (hoperator : T.Carries n (fun _ => T.EndsOperation) (call .operatorExpression)) :
    T.Carries n (fun _ => T.EndsExpression) annotatedExpression := by
  have htype : T.Carries n (fun _ => T.EndsExpression) (colon >>= fun _ => call .expression) :=
    Carries.typed (leads_token_call .expression (by decide)) hexpr
  refine Carries.bind hoperator (fun subject => ?_) fun subject => ?_
  · refine Leads.bind (F := fun _ => T.EndsExpression) ?_ fun type => ?_
    · exact leads_subject.mono (fun _ _ h => h) fun _ h => h.toEndsOperation
    · cases type <;> exact .pure fun _ h => h
  · refine Carries.bind (F := fun _ => T.EndsExpression) (Carries.optional? htype fun x hx =>
      hx.annotation fun _ => call .expression) (fun type => ?_) fun type => ?_
    · cases type <;> exact .pure fun _ h => h
    · cases type <;> exact .pure _

/-! ## Expressions -/

/-- A chain of operators is none of the forms with a body. -/
theorem leads_forms_operator (later : Rule) {E : later.Result → List Char → Prop}
    (hl : ∀ {P : List Char → Prop}, T.Leads n (fun _ _ => True) P (call .operatorExpression) →
      T.Leads n E P (call later)) (hf : ∀ c, later.first c = true → operandStart c = true) :
    T.Leads n E (T.Ready (call .ifExpression)) (call later) ∧
      T.Leads n E (T.Ready (call .letExpression)) (call later) ∧
        T.Leads n E (T.Ready (call .forallExpression)) (call later) := by
  have hmiss : ∀ word ∈ formWords, T.Leads n E (T.Misses (keyword word)) (call later) :=
    fun _ hm => hl (leads_form_operator hm)
  refine ⟨?_, ?_, ?_⟩
  · intro x a y h he _ _
    obtain ⟨c, t, rfl, -⟩ := h.first
    exact .call (List.cons_ne_nil c t) (.miss (hmiss "if" (by decide) _ a y h he))
  · intro x a y h he _ _
    obtain ⟨c, t, rfl, -⟩ := h.first
    have hne := List.cons_ne_nil c t
    exact .call hne (.miss (.call hne (.miss (hmiss "let" (by decide) _ a y h he))))
  · intro x a y h he _ _
    obtain ⟨c, t, rfl, hc⟩ := h.first
    have hopens : "∀".toList.head?.any (· != c) = true := by
      refine bne_iff_ne.mpr ?_
      rintro rfl
      cases hf _ hc
    exact .call (List.cons_ne_nil c t) (.bind (reads_accept_false hopens)
      (.miss (hmiss "forall" (by decide) _ a y h he)))

theorem carries_expression
    (hlambda : T.Carries n (fun _ => T.EndsExpression) (call .lambdaExpression))
    (hif : T.Carries n (fun _ => T.EndsExpression) (call .ifExpression))
    (hlet : T.Carries n (fun _ => T.EndsExpression) (call .letExpression))
    (hforall : T.Carries n (fun _ => T.EndsExpression) (call .forallExpression))
    (harrow : T.Carries n (fun _ => T.EndsExpression) (call .arrowExpression))
    (hmerge : T.Carries n (fun _ => T.EndsExpression) (call .mergeExpression))
    (hempty : T.Carries n (fun _ => T.EndsExpression) (call .emptyListExpression))
    (htoMap : T.Carries n (fun _ => T.EndsExpression) (call .toMapExpression))
    (hannotated : T.Carries n (fun _ => T.EndsExpression) (call .annotatedExpression))
    (hoperator : T.Carries n (fun _ => T.EndsOperation) (call .operatorExpression))
    (happlication : T.Carries n (fun _ => T.EndsApplication) (call .applicationExpression))
    (hoperand : T.Carries n (fun _ => T.EndsOperand) (call .importExpression)) :
    T.Carries n (fun _ => T.EndsExpression) expression := by
  obtain ⟨hifArrow, hletArrow, hforallArrow⟩ :=
    leads_forms_operator (T := T) (n := n) .arrowExpression (E := fun _ => T.EndsExpression)
      (fun h => Leads.call .arrowExpression (.front h)) fun _ h => h
  obtain ⟨hifAnnotated, hletAnnotated, hforallAnnotated⟩ :=
    leads_forms_operator (T := T) (n := n) .annotatedExpression (E := fun _ => T.EndsExpression)
      (fun h => Leads.call .annotatedExpression (.front h)) fun _ h => h
  have htyped := leads_typed_annotated hoperand happlication
  -- From the last alternative to the first, which must be ready wherever a later one lands.
  have hannotations : T.Carries n (fun _ => T.EndsExpression) (choice [call .annotatedExpression]) :=
    .orElse hannotated (fun _ _ _ h => nomatch h) fun _ _ _ _ h => nomatch h
  have htoMaps := Carries.orElse_ready htoMap hannotations
    (Leads.last (htyped.mono (fun _ _ h => h) fun _ h => h.toMap))
  have hempties := Carries.orElse_ready hempty htoMaps
    (.orElse (leads_apart .emptyListExpression .toMapExpression rfl (by decide) (by decide))
      (Leads.last leads_emptyList_annotated))
  have hmerges := Carries.orElse_ready hmerge hempties
    (.orElse (leads_apart .mergeExpression .emptyListExpression rfl (by decide) (by decide))
      (.orElse (leads_apart .mergeExpression .toMapExpression rfl (by decide) (by decide))
        (Leads.last (htyped.mono (fun _ _ h => h) fun _ h => h.merge))))
  have harrows := Carries.orElse_ready harrow hmerges
    (.orElse (leads_arrow_merge hoperand) (.orElse leads_arrow_emptyList
      (.orElse (leads_arrow_toMap hoperand) (Leads.last (leads_arrow_annotated hoperator)))))
  have hforalls := Carries.orElse_ready hforall harrows
    (.orElse hforallArrow
      (.orElse (leads_apart .forallExpression .mergeExpression rfl (by decide) (by decide))
      (.orElse (leads_apart .forallExpression .emptyListExpression rfl (by decide) (by decide))
      (.orElse (leads_apart .forallExpression .toMapExpression rfl (by decide) (by decide))
        (Leads.last hforallAnnotated)))))
  have hlets := Carries.orElse_ready hlet hforalls
    (.orElse (leads_apart .letExpression .forallExpression rfl (by decide) (by decide))
      (.orElse hletArrow
      (.orElse (leads_apart .letExpression .mergeExpression rfl (by decide) (by decide))
      (.orElse (leads_apart .letExpression .emptyListExpression rfl (by decide) (by decide))
      (.orElse (leads_apart .letExpression .toMapExpression rfl (by decide) (by decide))
        (Leads.last hletAnnotated))))))
  have hifs := Carries.orElse_ready hif hlets
    (.orElse (leads_apart .ifExpression .letExpression rfl (by decide) (by decide))
      (.orElse (leads_apart .ifExpression .forallExpression rfl (by decide) (by decide))
      (.orElse hifArrow
      (.orElse (leads_apart .ifExpression .mergeExpression rfl (by decide) (by decide))
      (.orElse (leads_apart .ifExpression .emptyListExpression rfl (by decide) (by decide))
      (.orElse (leads_apart .ifExpression .toMapExpression rfl (by decide) (by decide))
        (Leads.last hifAnnotated)))))))
  have hlambdas : ∀ (later : Rule) {E : later.Result → List Char → Prop},
      "λ\\".toList.all (fun c => !later.first c) = true →
        T.Leads n E (T.Ready (call .lambdaExpression)) (call later) :=
    fun later _ h => leads_apart .lambdaExpression later rfl (by decide) h
  refine .nested (Carries.orElse_ready hlambda hifs ?_)
  refine .orElse (hlambdas .ifExpression (by decide)) ?_
  refine .orElse (hlambdas .letExpression (by decide)) ?_
  refine .orElse (hlambdas .forallExpression (by decide)) ?_
  refine .orElse (hlambdas .arrowExpression (by decide)) ?_
  refine .orElse (hlambdas .mergeExpression (by decide)) ?_
  refine .orElse (hlambdas .emptyListExpression (by decide)) ?_
  refine .orElse (hlambdas .toMapExpression (by decide)) ?_
  exact Leads.last (hlambdas .annotatedExpression (by decide))

end Seam

end DhallSyntax
