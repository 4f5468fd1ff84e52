import DhallSyntax.Proofs.Seam.Collections

/-!
The alternatives of an expression, kept apart in front of a seam. Where a later alternative lands
with the first end of the text, the earlier ones match with neither end. Most of them begin with
other characters or other words; a function type, a `merge`, a `toMap` and an empty list begin as
another expression does, and are told apart by what is behind its first part. Main statements:

* `Seam.misses_arrowExpression`, `Seam.leads_arrow_annotated`: what has a type is no function type;
* `Seam.leads_untyped`: a `merge` or `toMap` without a type has none with the other end;
* `Seam.leads_bracket`: an expression that is no empty list does not begin as one.
-/

namespace DhallSyntax

open CharClass Grammar

variable {α β : Type}

namespace Seam

variable {T : Seam} {n m : Nat} {u v w x y z : List Char}

/-! ## First characters and words -/

/-- Rules that begin with other characters. -/
theorem leads_apart (rule later : Rule) {text : List Char} (ht : rule.first = text.contains)
    (hr : rule ≠ .expression) (hd : text.all (fun c => !later.first c) = true)
    {E : later.Result → List Char → Prop} :
    T.Leads n E (T.Ready (call rule)) (call later) := by
  intro x a y h _
  refine ready_begins (Rule.opens rule hr) (fun c hc => ?_) h.first
  rw [ht]
  exact not_contains hd c hc

theorem misses_expression {c : Char} (hc : Rule.expression.first c = false) :
    T.Misses (call .expression) (c :: u) :=
  .call (List.cons_ne_nil c u)
    (.nested (misses (Refuses.choice Rule.opens_forms) (List.cons_ne_nil c u) hc hc))

theorem reads_accept_false {literal : String} {c : Char}
    (h : literal.toList.head?.any (· != c) = true) :
    T.Reads (accept literal) (c :: u) false (c :: u) := by
  have hread : ∀ t, (accept literal).read (c :: t) = .value false (c :: t) := fun t =>
    readBy_accept_of_head literal h (bne_self_eq_false c)
  exact .plain trivial (hread (T.was u) ▸ .refl _) (hread (T.now u))

/-- The keywords that forms with a body begin with. -/
def formWords : List String := ["if", "let", "forall"]

theorem formWords_spec : ∀ word ∈ formWords, word ∈ marks ∧
    word.toList ∉ ["merge".toList, "Some".toList, "toMap".toList] := by decide

/-- A chain of operators begins with none of these keywords. -/
theorem leads_form_operator {word : String} (hm : word ∈ formWords)
    {E : Expr → List Char → Prop} :
    T.Leads n E (T.Misses (keyword word)) (call .operatorExpression) := by
  intro x a y h _
  obtain ⟨hmark, hno⟩ := formWords_spec word hm
  obtain ⟨c, t, rfl, -⟩ := h.first
  refine misses_word hmark (leads_word_operatorExpression (E := fun _ _ => True) _ a y h trivial)
    (List.cons_ne_nil c t) fun hs hw => h.ne_mismatch ?_
  exact Rule.refuses_operatorExpression.read ⟨beginsMark_of_word hmark hs hw, by rw [hw]; exact hno⟩

/-- No application begins with one of these keywords. -/
theorem leads_application_form {word : String} (hm : word ∈ formWords)
    {E : Unit → List Char → Prop} :
    T.Leads n E (T.Misses (call .applicationExpression)) (keyword word) := by
  refine leads_keyword fun y hy _ => ?_
  obtain ⟨hmark, hno⟩ := formWords_spec word hm
  obtain ⟨hcontinue, hstart, -, -⟩ := marks_spec word hmark
  obtain ⟨c, s, hs, hc⟩ := head?_of_any hstart
  have hform : ∀ t, t.head?.any labelContinue = false → BeginsForm (word.toList ++ t) := by
    intro t ht
    have hword := (wordOf_append hcontinue ht).1
    refine ⟨beginsMark_of_word hmark ?_ hword, by rw [hword]; exact hno⟩
    rw [hs]
    exact hc
  refine misses Rule.refuses_applicationExpression ?_ ?_ ?_
  · rw [hs]
    exact List.cons_ne_nil _ _
  · rw [was_append]
    exact hform _ hy
  · rw [now_append]
    exact hform _ (head_was labelContinue_unbroken hy)

/-! ## Brackets -/

/-- A bracket with nothing but whitespace to the closing one is no operand. -/
theorem misses_brackets (h : T.Lands n whitespace w () (']' :: v)) :
    T.Misses (call .firstApplicationExpression) ('[' :: w) := by
  have hne : '[' :: w ≠ [] := List.cons_ne_nil _ _
  have hnone : ∀ {α : Type}, T.Misses (.mismatch : Grammar α) ('[' :: w) :=
    misses_plain trivial rfl rfl
  have hlist : T.Misses (call .listLiteral) ('[' :: w) := by
    apply Same.call hne
    apply Same.bind (Same.plain (by simp) (.refl _) rfl : T.Reads (expect "[") ('[' :: w) () w)
    apply Same.bind (reads_whitespace h ⟨']', v, rfl, by decide⟩)
    apply Same.bind (reads_accept_false (by decide))
    exact .miss (misses_expression (by decide))
  have hprimitive : T.Misses (call .primitiveExpression) ('[' :: w) := by
    apply Same.call hne
    apply Same.right (.miss (misses_head Rule.opens_doubleLiteral (by decide)))
    apply Same.right (.miss (misses_head Rule.opens_naturalLiteral (by decide)))
    apply Same.right (.miss (misses_head Rule.opens_integerLiteral (by decide)))
    apply Same.right (misses_head Rule.opens_textLiteral (by decide))
    apply Same.right (misses_head Rule.opens_recordExpression (by decide))
    apply Same.right (misses_head Rule.opens_unionType (by decide))
    apply Same.right hlist
    apply Same.right (misses_head Rule.opens_identifier (by decide))
    exact .right (.miss (misses_expect "(" (by decide))) hnone
  have himport : T.Misses (call .importExpression) ('[' :: w) := by
    apply Same.call hne
    apply Same.right (.miss (misses_head Rule.opens_importClause (by decide)))
    exact .right (.call hne (.miss hprimitive)) hnone
  apply Same.call hne
  apply Same.right (.miss (misses_keyword "merge" (by decide)))
  apply Same.right (.miss (misses_keyword "Some" (by decide)))
  apply Same.right (.miss (misses_keyword "toMap" (by decide)))
  exact .right himport hnone

theorem lands_emptyList {a : Expr} (h : T.Lands n emptyListExpression x a y) :
    ∃ w v, x = '[' :: w ∧ T.Lands n whitespace w () (']' :: v) := by
  obtain ⟨_, w, hopen, h⟩ := Lands.bind h
  obtain ⟨_, u, hspace, h⟩ := Lands.bind h
  obtain ⟨_, v, hclose, -⟩ := Lands.bind h
  obtain rfl := lands_expect hopen
  obtain rfl := lands_expect hclose
  exact ⟨w, v, rfl, hspace⟩

/-- A chain of operators does not begin as an empty list does. -/
theorem leads_bracket {E : Expr → List Char → Prop} :
    T.Leads n E (T.Misses emptyListExpression) (call .operatorExpression) := by
  have hhead : ∀ {chars : CharClass}, chars '[' = false → ∀ x, Begins chars x →
      T.Misses emptyListExpression x := by
    rintro chars hc x ⟨c, t, rfl, ht⟩
    refine .miss (misses_expect "[" (bne_iff_ne.mpr ?_))
    rintro rfl
    exact Bool.false_ne_true (hc.symm.trans ht)
  have hrule : ∀ (rule : Rule) {E : rule.Result → List Char → Prop}, rule.first '[' = false →
      T.Leads n E (T.Misses emptyListExpression) (call rule) :=
    fun rule _ hr x _ _ h _ => hhead hr x h.first
  have hword : ∀ word ∈ ["merge", "Some", "toMap"], ∀ {E : Unit → List Char → Prop},
      T.Leads n E (T.Misses emptyListExpression) (keyword word) := by
    intro word hm E
    have hall : ∀ word ∈ ["merge", "Some", "toMap"],
        word.toList.head?.any (fun c => c != '[') = true := by decide
    exact (headed_keyword (E := E) (hall word hm)).begins.mono (fun _ _ he => he)
      (hhead (by decide))
  have hlist : ∀ {E : Expr → List Char → Prop},
      T.Leads n E (T.Misses emptyListExpression) (call .listLiteral) := by
    refine Leads.call .listLiteral ?_
    intro x a y hl _
    obtain ⟨_, w, hopen, h⟩ := Lands.bind hl
    clear hl
    obtain ⟨_, u, hspace, h⟩ := Lands.bind h
    obtain rfl := lands_expect hopen
    have hbegins : Begins (fun c => Rule.expression.first c || c == ',') u := by
      obtain ⟨b, v, hcomma, hn⟩ := Lands.bind h
      clear h
      obtain ⟨rfl, rfl⟩ | ⟨rfl, rfl, -⟩ := lands_accept hcomma
      · exact ⟨',', v, rfl, by simp⟩
      · obtain ⟨e, z, he, -⟩ := Lands.bind hn
        obtain ⟨c, t, rfl, hc⟩ := he.first
        exact ⟨c, t, rfl, by simp [hc]⟩
    obtain ⟨c, t, rfl, hc⟩ := hbegins
    have hne : ∀ d, (Rule.expression.first d || d == ',') = false → d ≠ c := by
      rintro d hd rfl
      exact Bool.false_ne_true (hd.symm.trans hc)
    apply Same.bind (Same.plain (by simp) (.refl _) rfl : T.Reads (expect "[") ('[' :: w) () w)
    apply Same.bind (reads_whitespace hspace ⟨c, t, rfl, (hne '\r' (by decide)).symm⟩)
    exact .miss (misses_expect "]" (bne_iff_ne.mpr (hne ']' (by decide))))
  have hprimitive : ∀ {E : Expr → List Char → Prop},
      T.Leads n E (T.Misses emptyListExpression) (call .primitiveExpression) := by
    refine Leads.call .primitiveExpression (Leads.choice ?_)
    simp only [List.forall_mem_cons]
    exact ⟨.front (hrule .doubleLiteral (by decide)), .front (hrule .naturalLiteral (by decide)),
      .front (hrule .integerLiteral (by decide)), hrule .textLiteral (by decide),
      hrule .recordExpression (by decide), hrule .unionType (by decide), hlist,
      hrule .identifier (by decide),
      .front ((headed_expect (by decide) (by decide : "(".toList.head?.any (· != '[') = true)).begins.mono
        (fun _ _ he => he) (hhead (by decide))),
      fun _ h => nomatch h⟩
  have himport : ∀ {E : Expr → List Char → Prop},
      T.Leads n E (T.Misses emptyListExpression) (call .importExpression) := by
    refine Leads.call .importExpression (Leads.choice ?_)
    simp only [List.forall_mem_cons]
    exact ⟨.front (hrule .importClause (by decide)),
      Leads.call .selectorExpression (.front hprimitive), fun _ h => nomatch h⟩
  refine Leads.call .operatorExpression (.front (Leads.call .applicationExpression (.front ?_)))
  refine Leads.call .firstApplicationExpression (Leads.choice ?_)
  simp only [List.forall_mem_cons]
  exact ⟨.front (hword _ (by decide)), .front (hword _ (by decide)), .front (hword _ (by decide)),
    himport, fun _ h => nomatch h⟩

/-! ## Types -/

/-- A colon with a type behind it ends a chain of operators. -/
theorem lands_colon (h : T.Lands n colon z () w) (hw : Token w) :
    ∃ v, T.Lands n whitespace z () (':' :: v) ∧ T.StopsOperation (':' :: v) := by
  obtain ⟨_, u, hspace, h⟩ := Lands.bind h
  obtain ⟨_, v, hmark, hone⟩ := Lands.bind h
  obtain rfl := lands_expect hmark
  obtain ⟨hlands, hstarts⟩ := lands_whitespace1 hone
  refine ⟨v, hspace, stopsOperation_colon ?_ ((starts_now hlands hw).trans hstarts)⟩
  rintro rfl
  exact hw.ne_nil (List.suffix_nil.mp hlands.suffix)

theorem leads_colon {next : Unit → Grammar α} {E : α → List Char → Prop}
    (h : T.Leads n E Token (next ())) : T.Leads n E T.EndsOperation (colon >>= next) := by
  intro x a y hl he
  obtain ⟨_, w, hcolon, hn⟩ := hl.bind
  obtain ⟨v, hspace, hstops⟩ := lands_colon hcolon (h w a y hn he)
  exact hstops.ends hspace

/-- In front of a colon an application is a whole chain of operators. -/
theorem reads_operatorExpression {a : Expr} (hx : x ≠ [])
    (h : T.Reads (call .firstApplicationExpression) x a z)
    (hspace : T.Lands n whitespace z () u) (hstops : T.StopsOperation u) :
    T.Reads (call .operatorExpression) x a z := by
  have hend : ∀ {σ β : Type} {part : Grammar β} {f : σ → β → σ} {start : σ}, T.Misses part z →
      T.Reads (foldMany part f start) z start z := by
    intro σ β part f start hm
    refine .iterate (.last (.bind (b := none) (.right (.miss hm) (.plain trivial (.refl _) rfl)) ?_))
    exact .plain trivial (.refl _) rfl
  have happlication : T.Reads (call .applicationExpression) x a z :=
    .call hx (.bind h (hend (hstops.misses_argumentTail hspace)))
  refine .call hx (.bind happlication (.bind (hend (.miss (hstops.misses_binaryOperator hspace))) ?_))
  exact .plain trivial (.refl _) rfl

theorem misses_arrow_colon (hspace : T.Lands n whitespace z () (':' :: v))
    (next : Unit → Grammar α) : T.Misses (arrow >>= next) z :=
  .miss (misses_whitespace hspace ⟨':', v, rfl, by decide⟩
    (.miss (misses_arrow (by decide) (by decide))))

/-- An application with a type behind it is no function type. -/
theorem misses_arrowExpression {a : Expr} (hx : x ≠ [])
    (h : T.Reads (call .firstApplicationExpression) x a z)
    (hcolon : T.Lands n colon z () w) (hw : Token w) : T.Misses (call .arrowExpression) x := by
  obtain ⟨v, hspace, hstops⟩ := lands_colon hcolon hw
  exact .call hx (.bind (reads_operatorExpression hx h hspace hstops)
    (misses_arrow_colon hspace _))

/-! ## Applications with a type -/

/-- A `merge` with a type is one without a type, and a colon behind it. -/
theorem lands_mergeExpression {a : Expr} (h : T.Lands n mergeExpression x a y) :
    ∃ f z w, T.Lands n mergeApplication x f z ∧ T.Lands n colon z () w ∧ Token w := by
  obtain ⟨_, u, hword, h⟩ := Lands.bind h
  obtain ⟨_, v, hspace, h⟩ := Lands.bind h
  obtain ⟨handler, r, hhandler, h⟩ := Lands.bind h
  obtain ⟨_, s, hspace', h⟩ := Lands.bind h
  obtain ⟨union, z, hunion, h⟩ := Lands.bind h
  obtain ⟨_, w, hcolon, h⟩ := Lands.bind h
  obtain ⟨type, t, htype, -⟩ := Lands.bind h
  refine ⟨.merge handler union none, z, w, ?_, hcolon, ?_⟩
  · exact lands_bind hword (lands_bind hspace (lands_bind hhandler (lands_bind hspace'
      (lands_bind hunion (lands_pure _ _)))))
  · exact leads_token_call .applicationExpression (by decide) (E := fun _ _ => True) w type t htype
      trivial

theorem lands_toMapExpression {a : Expr} (h : T.Lands n toMapExpression x a y) :
    ∃ f z w, T.Lands n toMapApplication x f z ∧ T.Lands n colon z () w ∧ Token w := by
  obtain ⟨_, u, hword, h⟩ := Lands.bind h
  obtain ⟨_, v, hspace, h⟩ := Lands.bind h
  obtain ⟨record, z, hrecord, h⟩ := Lands.bind h
  obtain ⟨_, w, hcolon, h⟩ := Lands.bind h
  obtain ⟨type, t, htype, -⟩ := Lands.bind h
  refine ⟨.toMap record none, z, w, ?_, hcolon, ?_⟩
  · exact lands_bind hword (lands_bind hspace (lands_bind hrecord (lands_pure _ _)))
  · exact leads_token_call .applicationExpression (by decide) (E := fun _ _ => True) w type t htype
      trivial

section Typed

variable (hoperand : T.Carries n (fun _ => T.EndsOperand) (call .importExpression))

include hoperand

theorem leads_arrow_merge {E : Expr → List Char → Prop} :
    T.Leads n E (T.Ready (call .arrowExpression)) (call .mergeExpression) := by
  intro x a y h _ _ _
  obtain ⟨c, t, rfl, -⟩ := h.first
  obtain ⟨f, z, w, hmerge, hcolon, hw⟩ := lands_mergeExpression h.body
  obtain ⟨v, hspace, hstops⟩ := lands_colon hcolon hw
  have hreads := carries_mergeApplication hoperand _ f z hmerge (hstops.ends hspace).toEndsOperand
  have hne := List.cons_ne_nil c t
  exact misses_arrowExpression hne (.call hne (.left hreads)) hcolon hw

theorem leads_arrow_toMap {E : Expr → List Char → Prop} :
    T.Leads n E (T.Ready (call .arrowExpression)) (call .toMapExpression) := by
  intro x a y h _ _ _
  obtain ⟨c, t, rfl, hc⟩ := h.first
  obtain rfl : c = 't' := by simpa [Rule.first] using hc
  obtain ⟨f, z, w, htoMap, hcolon, hw⟩ := lands_toMapExpression h.body
  obtain ⟨v, hspace, hstops⟩ := lands_colon hcolon hw
  have hreads := carries_toMapApplication hoperand _ f z htoMap (hstops.ends hspace).toEndsOperand
  have hne := List.cons_ne_nil 't' t
  refine misses_arrowExpression (a := f) hne (.call hne ?_) hcolon hw
  apply Same.right (.miss (misses_keyword "merge" (by decide)))
  exact .right (.miss (misses_keyword "Some" (by decide))) (.left hreads)

omit hoperand in
theorem leads_arrow_emptyList {E : Expr → List Char → Prop} :
    T.Leads n E (T.Ready (call .arrowExpression)) (call .emptyListExpression) := by
  intro x a y h _ _ _
  obtain ⟨w, v, rfl, hspace⟩ := lands_emptyList h.body
  have hne := List.cons_ne_nil '[' w
  exact .call hne (.miss (.call hne (.miss (.call hne (.miss (misses_brackets hspace))))))

end Typed

/-! ## Applications without a type -/

/-- An application that does not match does not begin with anything that lands. -/
theorem ready_applicationExpression {g : Grammar Expr} {a : Expr}
    (hg : g ∈ [mergeApplication, someApplication, toMapApplication, call .importExpression])
    (h : T.Lands n g x a y) : T.Ready (call .applicationExpression) x := by
  intro m hf
  obtain ⟨m, hf⟩ := hf.call
  obtain ⟨m, hf⟩ := (Fails.first hf fun _ => softly_foldMany_ne_mismatch _ _ _).call
  obtain ⟨hmerge, hf⟩ := Fails.choice hf
  obtain ⟨hsome, hf⟩ := Fails.choice hf
  obtain ⟨htoMap, hf⟩ := Fails.choice hf
  obtain ⟨himport, -⟩ := Fails.choice hf
  simp only [List.mem_cons, List.not_mem_nil, or_false] at hg
  obtain rfl | rfl | rfl | rfl := hg
  · exact absurd hmerge h.not_fails
  · exact absurd hsome h.not_fails
  · exact absurd htoMap h.not_fails
  · exact absurd himport h.not_fails

/-- Where an expression is, an application matches with both ends or with neither. -/
theorem leads_application {E : Expr → List Char → Prop} :
    T.Leads n E (T.Ready (call .applicationExpression)) (call .expression) := by
  have hform : ∀ {word : String} {E : Unit → List Char → Prop}, word ∈ formWords →
      T.Leads n E (T.Ready (call .applicationExpression)) (keyword word) :=
    fun hm => (leads_application_form hm).mono (fun _ _ he => he) fun _ h _ _ => h
  have hoperator : ∀ {E : Expr → List Char → Prop},
      T.Leads n E (T.Ready (call .applicationExpression)) (call .operatorExpression) := by
    refine Leads.call .operatorExpression (.front ?_)
    exact fun x a y h _ => h.ready
  have hlambda : ∀ {E : Expr → List Char → Prop},
      T.Leads n E (T.Ready (call .applicationExpression)) (call .lambdaExpression) := by
    intro E x a y h _
    exact ready_begins Rule.opens_applicationExpression (contains_apart (by decide)) h.first
  have hforall : ∀ {E : Expr → List Char → Prop},
      T.Leads n E (T.Ready (call .applicationExpression)) (call .forallExpression) := by
    refine Leads.call .forallExpression ?_
    intro x a y h _
    obtain ⟨b, z, hb, hn⟩ := Lands.bind h
    clear h
    obtain ⟨rfl, rfl⟩ | ⟨rfl, rfl, -⟩ := lands_accept hb
    · exact fun _ _ => misses_head Rule.opens_applicationExpression (by decide)
    · obtain ⟨_, w, hword, -⟩ := Lands.bind hn
      exact hform (by decide) (E := fun _ _ => True) _ _ w hword trivial
  have hmerge : ∀ {E : Expr → List Char → Prop},
      T.Leads n E (T.Ready (call .applicationExpression)) (call .mergeExpression) := by
    intro E x a y h _
    obtain ⟨f, z, w, hlands, -⟩ := lands_mergeExpression h.body
    exact ready_applicationExpression List.mem_cons_self hlands
  have htoMap : ∀ {E : Expr → List Char → Prop},
      T.Leads n E (T.Ready (call .applicationExpression)) (call .toMapExpression) := by
    intro E x a y h _
    obtain ⟨f, z, w, hlands, -⟩ := lands_toMapExpression h.body
    exact ready_applicationExpression (by simp) hlands
  have hempty : ∀ {E : Expr → List Char → Prop},
      T.Leads n E (T.Ready (call .applicationExpression)) (call .emptyListExpression) := by
    intro E x a y h _ _ _
    obtain ⟨w, v, rfl, hspace⟩ := lands_emptyList h.body
    exact .call (List.cons_ne_nil '[' w) (.miss (misses_brackets hspace))
  refine Leads.call .expression (fun x a y h he => ?_)
  refine Leads.choice (E := E) ?_ x a y (h : T.Lands n (choice _) x a y) he
  simp only [List.forall_mem_cons]
  exact ⟨hlambda, Leads.call .ifExpression (.front (hform (by decide))),
    Leads.call .letExpression (.front (Leads.call .letBinding (.front (hform (by decide))))),
    hforall, Leads.call .arrowExpression (.front hoperator), hmerge, hempty, htoMap,
    Leads.call .annotatedExpression (.front hoperator), fun _ h => nomatch h⟩

/-- An application with a type behind it is not read here with one end but not with the other. -/
def Untyped (T : Seam) (x : List Char) : Prop := ∀ f : Expr → Expr,
  T.Ready (colon >>= fun _ => call .applicationExpression >>= fun type => return f type) x

/-- What is annotated ends: with its type, or as an expression does. -/
structure EndsSubject (T : Seam) (y : List Char) : Prop extends T.EndsOperation y where
  untyped : T.Untyped y
  codomain : ∀ {α : Type} (next : Unit → Grammar α), T.Ready (arrow >>= next) y

theorem leads_subject : T.Leads n (fun _ => T.EndsExpression) T.EndsSubject
    (optional? (colon >>= fun _ => call .expression)) := by
  refine Leads.optional? ?_ fun x h => ?_
  · intro x a y hl _
    obtain ⟨_, w, hcolon, hexpr⟩ := hl.bind
    have hw : Token w :=
      leads_token_call .expression (by decide) (E := fun _ _ => True) w a y hexpr trivial
    obtain ⟨v, hspace, hstops⟩ := lands_colon hcolon hw
    exact {
      toEndsOperation := hstops.ends hspace
      untyped := fun f m hf => by
        have hfails := Fails.first (hf.bind hcolon) fun _ _ he => nomatch he
        refine .bind (carries_colon x () w hcolon hw) (.miss ?_)
        exact leads_application (E := fun _ _ => True) w a y hexpr trivial m hfails
      codomain := fun next _ _ => misses_arrow_colon hspace next }
  · exact ⟨h.toEndsOperation, fun f => h.annotation _, h.codomain⟩

/-- In front of a token that is no colon there is no type. -/
theorem untyped_token {c : Char} {t : List Char} (hw : T.Lands n whitespace x () (c :: t))
    (hc : c ≠ ':') (hr : c ≠ '\r') : T.Untyped x :=
  fun _ _ _ => .miss (misses_whitespace hw ⟨c, t, rfl, hr⟩
    (.miss (misses_expect ":" (bne_iff_ne.mpr hc.symm))))

theorem leads_untyped_argumentTail {E : Expr → List Char → Prop} :
    T.Leads n E T.Untyped argumentTail := by
  intro x a y h _
  obtain ⟨_, u, hw, hn⟩ := h.bind
  obtain ⟨c, t, rfl, hc⟩ := hn.first
  refine untyped_token (lands_whitespace1 hw).1 ?_ ?_ <;> rintro rfl <;> cases hc

theorem leads_untyped_operatorTail {E : Operator × Expr → List Char → Prop} :
    T.Leads n E T.Untyped operatorTail := by
  intro x a y h _
  obtain ⟨op, z, hop, -⟩ := Lands.bind h
  obtain ⟨p, hp, v, hw, -, -⟩ := lands_binaryOperator hop
  have hall : ∀ p ∈ Operator.spellings,
      p.text.toList.head?.any (fun c => c != ':' && c != '\r') = true := by decide
  obtain ⟨c, t, ht, hc⟩ := head?_of_any (hall p hp)
  rw [ht] at hw
  simp only [Bool.and_eq_true, bne_iff_ne] at hc
  exact untyped_token hw hc.1 hc.2

/-- Nothing that is read with a type begins here, or it is read with either end. -/
structure NoTyped (T : Seam) (x : List Char) : Prop where
  merge : T.Ready (call .mergeExpression) x
  toMap : T.Ready (call .toMapExpression) x

section Untyped

variable (hoperand : T.Carries n (fun _ => T.EndsOperand) (call .importExpression))

include hoperand in
/-- A `merge` that has no type with the first end has none with the second one. -/
theorem leads_noTyped_merge :
    T.Leads n (fun _ x => T.EndsOperand x ∧ T.Untyped x) T.NoTyped mergeApplication := by
  intro x a y h he
  obtain ⟨_, u, hword, h⟩ := Lands.bind h
  obtain ⟨_, v, hspace, h⟩ := Lands.bind h
  obtain ⟨handler, r, hhandler, h⟩ := Lands.bind h
  obtain ⟨_, s, hspace', h⟩ := Lands.bind h
  obtain ⟨union, z, hunion, h⟩ := Lands.bind h
  obtain ⟨rfl, rfl⟩ := Lands.pure h
  have hends : T.EndsOperand r := endsOperand_argument hspace' hunion he.1.colon
  have hv : Token v := leads_token_call .importExpression (by decide) (E := fun _ _ => True) _ _ _
    hhandler trivial
  have hs : Token s := leads_token_call .importExpression (by decide) (E := fun _ _ => True) _ _ _
    hunion trivial
  obtain ⟨rfl, hstop⟩ := lands_keyword hword
  refine ⟨fun m hf => ?_, fun _ _ => ?_⟩
  · refine .call (by simp) ?_
    obtain ⟨m, hf⟩ := hf.call
    have hf := hf.bind hword
    have hf := hf.bind hspace
    have hf := hf.bind hhandler
    have hf := hf.bind hspace'
    have hf := hf.bind hunion
    apply Same.bind (carries_keyword (E := fun _ _ => True) _ _ _ _ hword trivial)
    apply Same.bind (carries_whitespace1 (E := fun _ => Token) (fun _ h => h) _ _ _ hspace hv)
    apply Same.bind (hoperand _ _ _ hhandler hends)
    apply Same.bind (carries_whitespace1 (E := fun _ => Token) (fun _ h => h) _ _ _ hspace' hs)
    exact .bind (hoperand _ _ _ hunion he.1) (he.2 _ m hf)
  · exact .call (by simp) (.miss (misses_keyword "toMap" (by decide)))

include hoperand in
theorem leads_noTyped_toMap :
    T.Leads n (fun _ x => T.EndsOperand x ∧ T.Untyped x) T.NoTyped toMapApplication := by
  intro x a y h he
  obtain ⟨_, u, hword, h⟩ := Lands.bind h
  obtain ⟨_, v, hspace, h⟩ := Lands.bind h
  obtain ⟨record, z, hrecord, h⟩ := Lands.bind h
  obtain ⟨rfl, rfl⟩ := Lands.pure h
  have hv : Token v := leads_token_call .importExpression (by decide) (E := fun _ _ => True) _ _ _
    hrecord trivial
  obtain ⟨rfl, hstop⟩ := lands_keyword hword
  refine ⟨fun _ _ => ?_, fun m hf => ?_⟩
  · exact .call (by simp) (.miss (misses_keyword "merge" (by decide)))
  · refine .call (by simp) ?_
    obtain ⟨m, hf⟩ := hf.call
    have hf := hf.bind hword
    have hf := hf.bind hspace
    have hf := hf.bind hrecord
    apply Same.bind (carries_keyword (E := fun _ _ => True) _ _ _ _ hword trivial)
    apply Same.bind (carries_whitespace1 (E := fun _ => Token) (fun _ h => h) _ _ _ hspace hv)
    exact .bind (hoperand _ _ _ hrecord he.1) (he.2 _ m hf)

include hoperand in
theorem leads_noTyped_first : T.Leads n (fun _ x => T.EndsOperand x ∧ T.Untyped x) T.NoTyped
    (call .firstApplicationExpression) := by
  have hsome : ∀ {E : Unit → List Char → Prop}, T.Leads n E T.NoTyped (keyword "Some") := by
    refine leads_keyword fun y _ _ => ⟨fun _ _ => ?_, fun _ _ => ?_⟩
    · exact .call (by simp) (.miss (misses_keyword "merge" (by decide)))
    · exact .call (by simp) (.miss (misses_keyword "toMap" (by decide)))
  have himport : ∀ {E : Expr → List Char → Prop},
      T.Leads n E T.NoTyped (call .importExpression) := by
    intro E x a y h _
    obtain ⟨c, t, rfl, -⟩ := h.first
    have hne := List.cons_ne_nil c t
    exact ⟨fun _ _ => .call hne (.miss (misses_mark (by decide) h)),
      fun _ _ => .call hne (.miss (misses_mark (by decide) h))⟩
  refine Leads.call .firstApplicationExpression (Leads.choice ?_)
  simp only [List.forall_mem_cons]
  exact ⟨leads_noTyped_merge hoperand, .front hsome, leads_noTyped_toMap hoperand, himport,
    fun _ h => nomatch h⟩

/-- Where a chain of operators has no type, nothing that has one begins. -/
theorem leads_noTyped
    (hoperand : T.Carries n (fun _ => T.EndsOperand) (call .importExpression))
    (happlication : T.Carries n (fun _ => T.EndsApplication) (call .applicationExpression)) :
    T.Leads n (fun _ => T.EndsSubject) T.NoTyped (call .operatorExpression) := by
  have hargument : T.Carries n (fun _ x => T.EndsOperand x ∧ T.Untyped x) argumentTail :=
    (carries_argumentTail hoperand).mono fun _ _ h => h.1
  have hoperation : T.Carries n (fun _ x => T.EndsApplication x ∧ T.Untyped x) operatorTail :=
    (carries_operatorTail happlication).mono fun _ _ h => h.1
  have harguments : T.Leads n (fun _ x => T.EndsOperand x ∧ T.Untyped x)
      (fun x => T.EndsOperand x ∧ T.Untyped x) argumentTail := fun x a y h he =>
    ⟨leads_argumentTail x a y h he.1, leads_untyped_argumentTail (E := fun _ _ => True) x a y h trivial⟩
  have hoperations : T.Leads n (fun _ x => T.EndsApplication x ∧ T.Untyped x)
      (fun x => T.EndsApplication x ∧ T.Untyped x) operatorTail := fun x a y h he =>
    ⟨leads_operatorTail x a y h he.1, leads_untyped_operatorTail (E := fun _ _ => True) x a y h trivial⟩
  have happlications : T.Leads n (fun _ x => T.EndsApplication x ∧ T.Untyped x) T.NoTyped
      (call .applicationExpression) := by
    refine Leads.call .applicationExpression (Leads.bind (leads_noTyped_first hoperand) fun _ => ?_)
    exact Leads.foldMany hargument harguments argumentTail_shrinks
      fun _ x h => ⟨⟨h.1.toEndsOperand, h.2⟩, h.1.argument⟩
  refine Leads.call .operatorExpression (Leads.bind happlications fun _ => ?_)
  refine Leads.bind (F := fun _ => T.EndsSubject) ?_ fun _ => .pure fun _ h => h
  exact Leads.foldMany hoperation hoperations operatorTail_shrinks
    fun _ x h => ⟨⟨h.toEndsApplication, h.untyped⟩, h.tail⟩

end Untyped

section Annotated

variable (hoperand : T.Carries n (fun _ => T.EndsOperand) (call .importExpression))
  (happlication : T.Carries n (fun _ => T.EndsApplication) (call .applicationExpression))
  (hoperator : T.Carries n (fun _ => T.EndsOperation) (call .operatorExpression))

theorem lands_annotated {a : Expr} (h : T.Lands n annotatedExpression x a y)
    (he : T.EndsExpression y) :
    ∃ subject z, T.Lands n (call .operatorExpression) x subject z ∧ T.EndsSubject z := by
  obtain ⟨subject, z, hsubject, h⟩ := Lands.bind h
  obtain ⟨type, w, htype, h⟩ := Lands.bind h
  refine ⟨subject, z, hsubject, leads_subject z type w htype ?_⟩
  cases type with
  | none => exact (Lands.pure h).2 ▸ he
  | some type => exact (Lands.pure h).2 ▸ he

include hoperator in
theorem leads_arrow_annotated : T.Leads n (fun _ => T.EndsExpression)
    (T.Ready (call .arrowExpression)) (call .annotatedExpression) := by
  intro x a y h he m hf
  obtain ⟨subject, z, hsubject, hends⟩ := lands_annotated h.body he
  obtain ⟨c, t, rfl, -⟩ := h.first
  obtain ⟨m, hf⟩ := hf.call
  exact .call (List.cons_ne_nil c t)
    (.bind (hoperator _ subject z hsubject hends.toEndsOperation)
      (hends.codomain _ m (hf.bind hsubject)))

include hoperand happlication in
theorem leads_typed_annotated : T.Leads n (fun _ => T.EndsExpression) T.NoTyped
    (call .annotatedExpression) := by
  intro x a y h he
  obtain ⟨subject, z, hsubject, hends⟩ := lands_annotated h.body he
  exact leads_noTyped hoperand happlication x subject z hsubject hends

theorem leads_emptyList_annotated {E : Expr → List Char → Prop} :
    T.Leads n E (T.Ready (call .emptyListExpression)) (call .annotatedExpression) := by
  intro x a y h _ _ _
  obtain ⟨c, t, rfl, -⟩ := h.first
  obtain ⟨subject, z, hsubject, -⟩ := Lands.bind h.body
  exact .call (List.cons_ne_nil c t)
    (leads_bracket (E := fun _ _ => True) _ subject z hsubject trivial)

end Annotated

end Seam

end DhallSyntax
