import DhallSyntax.Proofs.Seam.Imports

/-!
Primitive expressions, selection, application and operators in front of a seam. Main statements:

* `Seam.carries_primitiveExpression`: a primitive expression carries over if its parts do;
* `Seam.carries_importExpression`, `Seam.carries_applicationExpression`,
  `Seam.carries_operatorExpression`: what stands between and beside operators carries over where
  nothing goes on with it.
-/

namespace DhallSyntax

open CharClass Grammar

variable {α β : Type}

namespace Seam

variable {T : Seam} {n m : Nat} {x y z : List Char}

/-! ## Primitive expressions -/

/-- Some characters are not of a class. -/
theorem contains_apart {text : List Char} {chars : CharClass}
    (h : text.all (fun c => !chars c) = true) :
    ∀ c, text.contains c = true → chars c = false := by
  intro c hc
  simpa using List.all_eq_true.mp h c (List.contains_iff_mem.mp hc)

/-- What does not match in front of a value that is only wrapped does not match by itself. -/
theorem Ready.map {first : Grammar β} {f : β → α} (h : T.Ready first x) :
    T.Ready (first >>= fun b => return f b) x :=
  fun n hf => .miss (h n (Fails.first hf fun _ _ he => nomatch he))

theorem ready_begins {chars later : CharClass} {levels : Nat} {g : Grammar α}
    (ho : Grammar.OpensWith chars levels g) (hd : ∀ c, later c = true → chars c = false)
    (hx : Begins later x) : T.Ready g x := by
  obtain ⟨c, t, rfl, hc⟩ := hx
  exact fun _ _ => misses_head ho (hd c hc)

/-- Alternatives of which the first is ready where one of the others lands. -/
theorem Carries.orElse_ready {first second : Grammar α} {E : α → List Char → Prop}
    (h : T.Carries n E first) (hs : T.Carries n E second)
    (hl : T.Leads n E (T.Ready first) second) : T.Carries n E (.orElse first second) :=
  Carries.orElse h hs fun x a y hf ha he => hl x a y ha he n hf

/-- The name of an identifier is none of the words for doubles, with either end. -/
theorem leads_identifier_double {E : Expr → List Char → Prop} :
    T.Leads n E (T.Ready (call .doubleLiteral)) (call .identifier) := by
  intro x a y h _
  obtain ⟨c, t, rfl, hc⟩ := h.first
  obtain hs | hq := Bool.or_eq_true_iff.mp hc
  · have hs : (c :: t).head?.any labelStart = true := hs
    have hword : wordOf (T.was (c :: t)) ∉ ["Infinity".toList, "NaN".toList] := by
      intro hm
      have hall : ∀ word ∈ ["Infinity".toList, "NaN".toList],
          Vocabulary.isKeyword (String.ofList word) = true := by decide
      exact h.ne_mismatch (Rule.refuses_identifier.read ⟨was_head_any hs, hall _ hm⟩)
    obtain ⟨hnow, -⟩ := word_now (leads_word_identifier (E := fun _ _ => True) _ a y h trivial hs)
    have hfree : doubleLiteral.CallFree := doesOnly_doubleLiteral ⟨_, rfl⟩
    have hread : ∀ {s : List Char}, s.head?.any labelStart = true →
        wordOf s ∉ ["Infinity".toList, "NaN".toList] →
          doubleLiteral.readBy Rule.read s = .mismatch :=
      fun hs hw => (Rule.read_eq .doubleLiteral _).symm.trans (read_doubleLiteral_word hs hw)
    intro _ _
    refine .call (List.cons_ne_nil c t) (misses_plain hfree (hread (was_head_any hs) hword) ?_)
    exact hread (now_head_any hs) (by rw [hnow]; exact hword)
  · obtain rfl := beq_iff_eq.mp hq
    exact fun _ _ => misses_head Rule.opens_doubleLiteral (by decide)

theorem carries_parenthesized
    (hexpr : T.Carries n (fun _ => T.EndsExpression) (call .expression))
    {E : Expr → List Char → Prop} : T.Carries n E parenthesized := by
  apply Carries.andThen (carries_expect (by decide))
  intro _
  refine Carries.bind (carries_completeExpression hexpr)
    (fun _ => .front (leads_stops_expect (by decide))) fun _ => ?_
  exact .andThen (carries_expect (by decide)) fun _ => .pure _

/-- A primitive expression carries over if its parts do. -/
theorem carries_primitiveExpression {E : Expr → List Char → Prop}
    (hdouble : T.Carries n (fun _ _ => True) (call .doubleLiteral))
    (hnatural : T.Carries n (fun _ _ => True) (call .naturalLiteral))
    (hinteger : T.Carries n (fun _ _ => True) (call .integerLiteral))
    (htext : T.Carries n (fun _ _ => True) (call .textLiteral))
    (hrecord : T.Carries n (fun _ _ => True) (call .recordExpression))
    (hunion : T.Carries n (fun _ _ => True) (call .unionType))
    (hlist : T.Carries n (fun _ _ => True) (call .listLiteral))
    (hidentifier : T.Carries n E (call .identifier))
    (hexpr : T.Carries n (fun _ => T.EndsExpression) (call .expression)) :
    T.Carries n E primitiveExpression := by
  have hany : ∀ {g : Grammar Expr}, T.Carries n (fun _ _ => True) g → T.Carries n E g :=
    fun h => h.mono fun _ _ _ => trivial
  have hparenthesized : T.Headed n E "(".toList.contains parenthesized :=
    ⟨carries_parenthesized hexpr,
      .front (headed_expect (E := fun _ _ => True) (by decide) (by decide)).begins⟩
  have hnames := Headed.orElse Rule.opens_identifier (.call .identifier hidentifier)
    (contains_apart (by decide)) hparenthesized.last
  have hlists := Headed.orElse Rule.opens_listLiteral (.call .listLiteral (hany hlist))
    (not_contains (by decide)) hnames
  have hunions := Headed.orElse Rule.opens_unionType (.call .unionType (hany hunion))
    (not_contains (by decide)) hlists
  have hrecords := Headed.orElse Rule.opens_recordExpression
    (.call .recordExpression (hany hrecord)) (not_contains (by decide)) hunions
  have htexts := Headed.orElse Rule.opens_textLiteral (.call .textLiteral (hany htext))
    (not_contains (by decide)) hrecords
  have hopens : Grammar.OpensWith Rule.integerLiteral.first 1
      (do return .integer (← call .integerLiteral) : Grammar Expr) :=
    .bind Rule.opens_integerLiteral
  have hintegers := Headed.orElse hopens (.bind (.call .integerLiteral hinteger) fun _ => .pure _)
    (not_contains (by decide)) htexts
  have hdigit : ∀ c, Rule.label.first c = true → digit c = false := by
    intro c hc
    obtain hc | hc := Bool.or_eq_true_iff.mp hc
    · rw [labelStart_iff] at hc
      rw [← Bool.not_eq_true, digit_iff]
      omega
    · rw [beq_iff_eq.mp hc]
      decide
  have hopens : Grammar.OpensWith Rule.naturalLiteral.first 1
      (do return .natural (← call .naturalLiteral) : Grammar Expr) :=
    .bind Rule.opens_naturalLiteral
  have hnaturals := Headed.orElse hopens (.bind (.call .naturalLiteral hnatural) fun _ => .pure _)
    ?_ hintegers
  · refine Carries.orElse_ready (.andThen hdouble fun _ => .pure _) hnaturals.carries ?_
    -- Numbers and names are no doubles with either end, and the rest begins with other characters.
    have hmap : ∀ x, T.Ready (call .doubleLiteral) x →
        T.Ready (do return .double (← call .doubleLiteral) : Grammar Expr) x :=
      fun x hx => hx.map
    have hready : ∀ {chars : CharClass} {g : Grammar Expr}, T.Headed n E chars g →
        (∀ c, chars c = true → Rule.doubleLiteral.first c = false) →
          T.Leads n E (T.Ready (call .doubleLiteral)) g :=
      fun h hd => h.begins.mono (fun _ _ he => he) fun _ => ready_begins Rule.opens_doubleLiteral hd
    refine Leads.mono (Leads.orElse (.front leads_natural_double)
      (.orElse (.front leads_integer_double) ?_)) (fun _ _ he => he) hmap
    refine .orElse (hready (.call .textLiteral (hany htext)) (contains_apart (by decide))) ?_
    refine .orElse (hready (.call .recordExpression (hany hrecord)) (contains_apart (by decide))) ?_
    refine .orElse (hready (.call .unionType (hany hunion)) (contains_apart (by decide))) ?_
    refine .orElse (hready (.call .listLiteral (hany hlist)) (contains_apart (by decide))) ?_
    exact .orElse leads_identifier_double
      (hready hparenthesized.last (contains_apart (by decide)))
  · intro c hc
    have hmarks : ∀ {text : List Char}, text.all (fun c => !digit c) = true →
        text.contains c = true → digit c = false := fun ht => contains_apart ht c
    simp only [Bool.or_eq_true] at hc
    obtain hc | hc | hc | hc | hc | hc | hc := hc
    · exact hmarks (by decide) hc
    · exact hmarks (by decide) hc
    · exact hmarks (by decide) hc
    · exact hmarks (by decide) hc
    · exact hmarks (by decide) hc
    · exact hdigit c hc
    · exact hmarks (by decide) hc

/-! ## Selection -/

/-- One step through the labels of a projection. -/
abbrev projectionStep (labels : List String) : Grammar (List String ⊕ List String) := do
  if (← peek) == some '\x7d' then return .inr labels
  else
    let labels := (← call .label) :: labels
    whitespace
    if ← accept "," then
      whitespace
      return .inl labels
    else
      return .inr labels

section Labels

variable (hlabel : T.Carries n (fun _ _ => True) (call .label))

/-- Every step, and the brace behind the last one, begins with a token. -/
theorem leads_projectionStep (labels : List String) :
    T.Leads n (Sum.elim (fun _ => Token) fun _ => Token) Token (projectionStep labels) := by
  refine Leads.bind (F := fun _ => Token) (leads_look fun x h => h) fun _ => ?_
  exact .ite (fun _ => .pure fun _ h => h) fun _ => .front (leads_token_call .label (by decide))

theorem projectionStep_shrinks (labels : List String) :
    T.Shrinks n (fun r => r.isLeft = true) (projectionStep labels) :=
  .behind fun _ => .ite (.pure Bool.false_ne_true) (.first (.call .label))

include hlabel in
theorem carries_projectionStep (labels : List String) :
    T.Carries n (Sum.elim (fun _ => Token) fun _ => Token) (projectionStep labels) := by
  apply Carries.bind (F := fun _ => Token) (carries_peek fun _ y h => h.ne_nil)
  · exact fun _ => .ite (fun _ => .pure fun _ h => h) fun _ =>
      .front (leads_token_call .label (by decide))
  · refine fun _ => .ite (fun _ => .pure _) fun _ => .andThen hlabel fun _ => ?_
    refine Carries.spaced (leads_token_accept (by decide) (.pure fun _ h => h)) ?_
    refine .andThen (carries_accept (by decide)) fun _ => .ite (fun _ => ?_) fun _ => .pure _
    exact Carries.spaced (.pure fun _ h => h) (.pure _)

include hlabel in
theorem carries_projectionLabels {E : List String → List Char → Prop} :
    T.Carries n E projectionLabels := by
  have hlist : T.Carries n (fun _ => Token) (iterate [] projectionStep) :=
    Carries.iterate (fun _ => Token) (carries_projectionStep hlabel) leads_projectionStep
      fun labels x next z h => projectionStep_shrinks labels x (.inl next) z h rfl
  have hstart : T.Leads n (fun _ => Token) Token (iterate [] projectionStep) :=
    Leads.iterate (fun _ => Token) (carries_projectionStep hlabel) leads_projectionStep
      fun labels x next z h => projectionStep_shrinks labels x (.inl next) z h rfl
  have hrest : T.Carries n E (do
      let labels ← iterate [] projectionStep
      expect "\x7d"
      return labels.reverse) :=
    Carries.bind hlist (fun _ => .front (leads_token_expect (by decide)))
      fun _ => .andThen (carries_expect (by decide)) fun _ => .pure _
  have hlead : T.Leads n E Token (do
      let labels ← iterate [] projectionStep
      expect "\x7d"
      return labels.reverse) :=
    Leads.bind hstart fun _ => .front (leads_token_expect (by decide))
  refine Carries.spaced (leads_token_accept (by decide) hlead) ?_
  refine .andThen (carries_accept (by decide)) fun _ => .ite (fun _ => ?_) fun _ => hrest
  exact Carries.spaced hlead hrest

end Labels

section Selection

variable (hlabel : T.Carries n (fun _ _ => True) (call .label))
  (hexpr : T.Carries n (fun _ => T.EndsExpression) (call .expression))

include hlabel hexpr

theorem carries_selector {E : Selector → List Char → Prop} : T.Carries n E selector := by
  have hfirst : ∀ {E : Selector → List Char → Prop}, T.Leads n E Token (do
      return Selector.label (← call .label)) := .front (leads_token_call .label (by decide))
  apply Carries.spaced (.front (leads_token_expect (by decide)))
  apply Carries.andThen (carries_expect (by decide))
  intro _
  apply Carries.spaced (leads_token_accept (by decide) (leads_token_accept (by decide) hfirst))
  refine .andThen (carries_accept (by decide)) fun _ => .ite (fun _ => ?_) fun _ => ?_
  · exact .andThen (carries_projectionLabels hlabel) fun _ => .pure _
  refine .andThen (carries_accept (by decide)) fun _ => .ite (fun _ => ?_) fun _ => ?_
  · exact Carries.bind (carries_completeExpression hexpr)
      (fun _ => .front (leads_stops_expect (by decide)))
      fun _ => .andThen (carries_expect (by decide)) fun _ => .pure _
  · exact .andThen hlabel fun _ => .pure _

theorem carries_selectorExpression
    (hprimitive : T.Carries n (fun _ => T.EndsOperand) (call .primitiveExpression)) :
    T.Carries n (fun _ => T.EndsOperand) selectorExpression := by
  have hselector : T.Carries n (fun _ => T.EndsOperand) selector := carries_selector hlabel hexpr
  have hshort : ∀ x a z, T.Lands n selector x a z → z.length < x.length :=
    fun x a z h => Shrinks.behind (K := fun _ => True)
      (fun _ => .first (shrinks_expect (by decide))) x a z h trivial
  have hlast : ∀ (_ : Expr) x, T.EndsOperand x → T.EndsOperand x ∧ T.Ready selector x :=
    fun _ x h => ⟨h, h.selector⟩
  exact Carries.bind hprimitive (fun _ => Leads.foldMany hselector leads_selector hshort hlast)
    fun _ => Carries.foldMany hselector leads_selector hshort hlast

end Selection

/-- An operand is an import, or what may be selected from. -/
theorem carries_importExpression
    (himport : T.Carries n (fun _ => T.EndsOperand) (call .importClause))
    (hselector : T.Carries n (fun _ => T.EndsOperand) (call .selectorExpression)) :
    T.Carries n (fun _ => T.EndsOperand) importExpression := by
  apply Carries.orElse_ready
  · exact Carries.bind himport (fun _ => .pure fun _ h => h) fun _ => .pure _
  · exact .orElse hselector (fun _ _ _ h => nomatch h) fun _ _ _ _ h => nomatch h
  · refine Leads.orElse ?_ fun _ _ _ h => nomatch h
    exact fun x a y h he => (ready_importClause h he.colon).map

/-! ## Application -/

section Application

variable (hoperand : T.Carries n (fun _ => T.EndsOperand) (call .importExpression))

/-- An operand ends in front of a further argument. -/
theorem leads_argument {next : Expr → Grammar α} {E : α → List Char → Prop}
    (h : ∀ b, T.Leads n E T.EndsOperand (next b)) :
    T.Leads n E T.EndsOperand (whitespace1 >>= fun _ => call .importExpression >>= next) := by
  intro x a y hl he
  obtain ⟨_, u, hw, hn⟩ := hl.bind
  obtain ⟨b, z, hb, hz⟩ := hn.bind
  exact endsOperand_argument hw hb (h b z a y hz he).colon

theorem leads_argumentTail : T.Leads n (fun _ => T.EndsOperand) T.EndsOperand argumentTail := by
  intro x a y hl he
  obtain ⟨_, u, hw, hb⟩ := hl.bind
  exact endsOperand_argument hw hb he.colon

include hoperand in
/-- A word, and an operand behind it. -/
theorem carries_argument {next : Expr → Grammar α} {E : α → List Char → Prop}
    (hl : ∀ b, T.Leads n E T.EndsOperand (next b)) (hn : ∀ b, T.Carries n E (next b)) :
    T.Carries n E (whitespace1 >>= fun _ => call .importExpression >>= next) :=
  Carries.spaced1 (.front (leads_token_call .importExpression (by decide)))
    (Carries.bind hoperand hl hn)

include hoperand in
theorem carries_mergeApplication : T.Carries n (fun _ => T.EndsOperand) mergeApplication := by
  apply Carries.andThen (carries_keyword _)
  intro _
  apply carries_argument hoperand
  · exact fun handler => leads_argument fun union => .pure fun _ h => h
  · exact fun handler => carries_argument hoperand (fun _ => .pure fun _ h => h) fun _ => .pure _

include hoperand in
theorem carries_toMapApplication : T.Carries n (fun _ => T.EndsOperand) toMapApplication :=
  .andThen (carries_keyword _) fun _ =>
    carries_argument hoperand (fun _ => .pure fun _ h => h) fun _ => .pure _

include hoperand in
theorem carries_firstApplicationExpression :
    T.Carries n (fun _ => T.EndsOperand) firstApplicationExpression := by
  have hmerge := carries_mergeApplication hoperand
  have hsome : T.Carries n (fun _ => T.EndsOperand) someApplication :=
    .andThen (carries_keyword _) fun _ =>
      carries_argument hoperand (fun _ => .pure fun _ h => h) fun _ => .pure _
  have htoMap := carries_toMapApplication hoperand
  -- No operand begins with one of the three words, and none of the words begins as another does.
  have hmark : ∀ {word : String} {next : Unit → Grammar Expr} {E : Expr → List Char → Prop},
      word ∈ marks → T.Leads n E (T.Ready (keyword word >>= next)) (call .importExpression) :=
    fun hm x a y h _ _ _ => .miss (misses_mark hm h)
  have hother : ∀ {word word' : String} {next next' : Unit → Grammar Expr}
      {E : Expr → List Char → Prop}, word'.toList.head?.all (fun c => word.toList.head?.any (· != c)) = true →
      word' ∈ marks → T.Leads n E (T.Ready (keyword word >>= next)) (keyword word' >>= next') := by
    intro word word' next next' E hne hm
    refine .front (leads_keyword fun y _ _ => ?_)
    obtain ⟨-, hstart, -⟩ := marks_spec word' hm
    obtain ⟨c, t, ht, -⟩ := head?_of_any hstart
    rw [ht] at hne ⊢
    exact fun _ _ => .miss (misses_keyword word hne)
  have hlast : T.Carries n (fun _ => T.EndsOperand) (choice [call .importExpression]) :=
    .orElse hoperand (fun _ _ _ h => nomatch h) fun _ _ _ _ h => nomatch h
  have hmarks : ∀ {word : String} {next : Unit → Grammar Expr} {E : Expr → List Char → Prop},
      word ∈ marks →
        T.Leads n E (T.Ready (keyword word >>= next)) (choice [call .importExpression]) :=
    fun hm => .orElse (hmark hm) fun _ _ _ h => nomatch h
  apply Carries.orElse_ready hmerge
  · apply Carries.orElse_ready hsome
    · exact Carries.orElse_ready htoMap hlast (hmarks (by decide))
    · exact .orElse (hother (by decide) (by decide)) (hmarks (by decide))
  · exact .orElse (hother (by decide) (by decide))
      (.orElse (hother (by decide) (by decide)) (hmarks (by decide)))

include hoperand in
theorem carries_argumentTail : T.Carries n (fun _ => T.EndsOperand) argumentTail :=
  Carries.spaced1 (leads_token_call .importExpression (by decide)) hoperand

omit hoperand in
theorem argumentTail_shrinks (x : List Char) (a : Expr) (z : List Char)
    (h : T.Lands n argumentTail x a z) : z.length < x.length :=
  Shrinks.behind (K := fun _ => True) (fun _ => .call .importExpression) x a z h trivial

include hoperand in
theorem carries_applicationExpression
    (hfirst : T.Carries n (fun _ => T.EndsOperand) (call .firstApplicationExpression)) :
    T.Carries n (fun _ => T.EndsApplication) applicationExpression := by
  have hpart := carries_argumentTail hoperand
  have hlast : ∀ (_ : Expr) x, T.EndsApplication x → T.EndsOperand x ∧ T.Ready argumentTail x :=
    fun _ x h => ⟨h.toEndsOperand, h.argument⟩
  exact Carries.bind hfirst
    (fun _ => Leads.foldMany hpart leads_argumentTail argumentTail_shrinks hlast)
    fun _ => Carries.foldMany hpart leads_argumentTail argumentTail_shrinks hlast

end Application

/-! ## Operators -/

theorem spellings_token :
    ∀ p ∈ Operator.spellings, p.text.toList.head?.any (· != '\r') = true := by decide

/-- What is behind the text of an operator, to its operand. -/
abbrev behindOperator (p : Operator.Spelling) : Grammar Operator := do
  if p.needsWhitespace then whitespace1 else whitespace
  return p.operator

/-- Where an operator lands, one of the spellings is. -/
theorem lands_binaryOperator {op : Operator} (hl : T.Lands n binaryOperator x op y) :
    ∃ p ∈ Operator.spellings, ∃ v, T.Lands n whitespace x () (p.text.toList ++ v) ∧
      (Operator.spellings.find? fun p' =>
        p'.text.toList.isPrefixOf (T.was (p.text.toList ++ v))) = some p ∧
      T.Lands n (behindOperator p) v op y := by
  obtain ⟨_, u, hw, h⟩ := Lands.bind hl
  obtain ⟨entry, z, hentry, h⟩ := Lands.bind h
  obtain ⟨hfind, rfl⟩ := lands_look hentry
  clear hl hentry
  cases entry with
  | none => cases h
  | some p =>
    obtain ⟨_, v, hadvance, hbehind⟩ := Lands.bind h
    have hprefix := List.find?_some (p := fun p : Operator.Spelling =>
      p.text.toList.isPrefixOf (T.was z)) hfind.symm
    obtain ⟨r, hr⟩ := List.isPrefixOf_iff_prefix.mp hprefix
    have hle : p.text.length ≤ (T.was z).length := by
      rw [← hr, List.length_append, String.length_toList]
      omega
    obtain ⟨w, hlength, rfl⟩ := lands_advance hadvance hle
    have hw' : w = p.text.toList := by
      rw [was_append] at hr
      exact (List.append_inj_left' hr (by
        have := congrArg List.length hr
        rw [List.length_append, List.length_append, hlength, String.length_toList] at this
        omega)).symm
    subst hw'
    exact ⟨p, List.mem_of_find?_eq_some hfind.symm, v, hw, hfind.symm, hbehind⟩

/-- Behind an operator that needs it there is whitespace. -/
theorem lands_behindOperator {p : Operator.Spelling} {op : Operator} (hy : Token y)
    (h : T.Lands n (behindOperator p) x op y) (hp : p.needsWhitespace = true) :
    ∃ c t, x = c :: t ∧ " \t\n\r-\x7b".toList.contains c = true := by
  unfold behindOperator at h
  rw [hp, if_pos rfl] at h
  obtain ⟨_, u, hu, hpure⟩ := Lands.bind h
  obtain ⟨-, rfl⟩ := Lands.pure hpure
  obtain ⟨hw, hs⟩ := lands_whitespace1 hu
  obtain ⟨c, t, rfl⟩ : ∃ c t, x = c :: t := by
    refine List.exists_cons_of_ne_nil ?_
    rintro rfl
    exact hy.ne_nil (List.suffix_nil.mp hw.suffix)
  exact ⟨c, t, rfl, starts_head hs⟩

theorem carries_behindOperator (p : Operator.Spelling) :
    T.Carries n (fun _ => Token) (behindOperator p) :=
  .ite (fun _ => Carries.spaced1 (.pure fun _ h => h) (.pure _))
    fun _ => Carries.spaced (.pure fun _ h => h) (.pure _)

theorem carries_binaryOperator : T.Carries n (fun _ => Token) binaryOperator := by
  intro x op y hl hy
  obtain ⟨p, hp, v, hw, hfind, hbehind⟩ := lands_binaryOperator hl
  refine .bind (reads_whitespace hw (token_append (spellings_token p hp) v)) ?_
  have hnow := find?_now spellings_unbroken (x := p.text.toList ++ v) fun p' hp' => by
    obtain rfl := Option.some.inj (hfind.symm.trans hp')
    exact List.prefix_append _ v
  refine .bind (reads_look hfind (hnow.trans hfind)) ?_
  have hadvance := reads_advance (T := T) (y := v) p.text.toList
  rw [String.length_toList] at hadvance
  exact .bind hadvance (carries_behindOperator p v op y hbehind hy)

theorem leads_operatorTail :
    T.Leads n (fun _ => T.EndsApplication) T.EndsApplication operatorTail := by
  intro x a y hl he
  obtain ⟨op, z, hop, h⟩ := Lands.bind hl
  have htoken : Token z := by
    obtain ⟨b, u, hb, -⟩ := Lands.bind h
    exact leads_token_call .applicationExpression (by decide) (E := fun _ _ => True) z b u hb trivial
  obtain ⟨p, hp, v, hw, -, hbehind⟩ := lands_binaryOperator hop
  exact (stopsApplication_operator hp (lands_behindOperator htoken hbehind)).ends hw

section Operation

variable (happlication : T.Carries n (fun _ => T.EndsApplication) (call .applicationExpression))

include happlication in
theorem carries_operatorTail : T.Carries n (fun _ => T.EndsApplication) operatorTail := by
  refine Carries.bind carries_binaryOperator
    (fun _ => .front (leads_token_call .applicationExpression (by decide))) fun _ => ?_
  exact Carries.bind happlication (fun _ => .pure fun _ h => h) fun _ => .pure _

theorem operatorTail_shrinks (x : List Char) (a : Operator × Expr) (z : List Char)
    (h : T.Lands n operatorTail x a z) : z.length < x.length :=
  Shrinks.behind (K := fun _ => True) (fun _ => .first (.call .applicationExpression)) x a z h
    trivial

include happlication in
theorem carries_operatorExpression : T.Carries n (fun _ => T.EndsOperation) operatorExpression := by
  have hpart := carries_operatorTail happlication
  have hlast : ∀ (_ : Pending Expr) x,
      T.EndsOperation x → T.EndsApplication x ∧ T.Ready operatorTail x :=
    fun _ x h => ⟨h.toEndsApplication, h.tail⟩
  refine Carries.bind happlication (fun first => ?_) fun first => ?_
  · exact Leads.bind (F := fun _ => T.EndsOperation)
      (Leads.foldMany hpart leads_operatorTail operatorTail_shrinks hlast) fun _ => .pure fun _ h => h
  · exact Carries.bind (F := fun _ => T.EndsOperation)
      (Carries.foldMany hpart leads_operatorTail operatorTail_shrinks hlast)
      (fun _ => .pure fun _ h => h) fun _ => .pure _

end Operation

end Seam

end DhallSyntax
