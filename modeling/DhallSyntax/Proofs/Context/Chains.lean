import DhallSyntax.Proofs.Context.Taken
import DhallSyntax.Proofs.Grammar.Cascade

/-!
Chains of operands in a source. What an application takes as a whole when there is nothing else is an
operand of a chain: in front of a space and an operator it is read as before, the operator is read
as spelled, and no longer form begins where the first operand does. Main statement: `parse_chain`.
-/

namespace DhallSyntax

open CharClass Grammar

variable {α σ : Type} {e : Expr} {s t u : List Char}

/-! ## Chains that are whole expressions -/

/-- A repetition goes on with its part, or ends where that does not match. -/
theorem readBy_foldMany_cases {part : Grammar α} {f : σ → α → σ} {start final : σ}
    (h : (foldMany part f start).read s = .value final t) :
    (∃ a u, part.read s = .value a u) ∨ part.read s = .mismatch ∧ t = s := by
  have hstep : Reading.iterateWithin (fun state s => (foldStep part f state).readBy Rule.read s) s
      start s = .value final t := h
  unfold Reading.iterateWithin at hstep
  obtain ⟨r, u, hr, hlater⟩ := Reading.bind_eq_value.mp hstep
  obtain ⟨a, hpart, -⟩ | ⟨hpart, rfl, rfl⟩ := foldStep_eq_value hr
  · exact .inl ⟨a, u, hpart⟩
  · exact .inr ⟨hpart, (Reading.value.inj hlater).2.symm⟩

/-- What a rule reads begins with one of its first characters. -/
theorem Rule.head_of_read {rule : Rule} {a : rule.Result} (h : rule.read s = .value a t) :
    s.head?.any rule.first = true := by
  refine Decidable.byContradiction fun hn => ?_
  cases (rule.read_of_first (Bool.eq_false_iff.mpr hn)).symm.trans h

theorem read_whitespace_of_whitespace1 (h : whitespace1.read s = .value () u) :
    whitespace.read s = .value () u := by
  obtain ⟨starts, v, hlook, h⟩ := Reading.bind_eq_value.mp h
  obtain ⟨rfl, rfl⟩ := Reading.value.inj hlook
  cases hs : Whitespace.starts s with
  | true =>
    rw [hs] at h
    exact h
  | false =>
    rw [hs] at h
    cases h

/-- Behind whitespace that is not followed by a colon there is no type. -/
theorem read_colon_mismatch (h : whitespace.read s = .value () u)
    (hu : u.head?.any (· == ':') = false) : colon.read s = .mismatch := by
  have hexpect : (expect ":").readBy Rule.read u = .mismatch := beginsWith_expect ":" rfl u hu
  have h : whitespace.readBy Rule.read s = .value () u := h
  simp only [colon, readBy_bind, h, hexpect, Reading.bind_value, Reading.bind_mismatch]

theorem head_ne {chars : CharClass} {c : Char} (h : s.head?.any chars = true)
    (hc : chars c = false) : s.head?.any (· == c) = false := by
  cases s with
  | nil => rfl
  | cons d s =>
    refine beq_false_of_ne ?_
    rintro rfl
    exact Bool.false_ne_true (hc.symm.trans h)

/-- What is behind the whitespace in front of an operator. -/
abbrev operatorSign : Grammar Operator := do
  match ← look fun s => Operator.spellings.find? fun p => p.text.toList.isPrefixOf s with
  | some spelling =>
    advance spelling.text.length
    if spelling.needsWhitespace then whitespace1 else whitespace
    return spelling.operator
  | none => fail "an operator"

theorem head_of_operator {op : Operator} (h : operatorSign.read s = .value op t) :
    s.head?.any Seam.operatorStart = true := by
  refine Decidable.byContradiction fun hn => ?_
  have hall : ∀ p ∈ Operator.spellings, p.text.toList.head?.any Seam.operatorStart = true := by
    decide
  have hfind : (Operator.spellings.find? fun p => p.text.toList.isPrefixOf s) = none :=
    List.find?_eq_none.mpr fun p hp => Bool.eq_false_iff.mp
      (isPrefixOf_of_head (hall p hp) (Bool.eq_false_iff.mpr hn))
  obtain ⟨entry, u, hlook, h⟩ := Reading.bind_eq_value.mp h
  obtain ⟨hentry, -⟩ := Reading.value.inj hlook
  obtain rfl : entry = none := hentry.symm.trans hfind
  cases h

/-- Where a chain that takes a whole text begins with an application of its own, no type is behind
that. -/
theorem read_colon_of_operator {f : Expr} (h : Rule.operatorExpression.read s = .value e [])
    (hf : Rule.firstApplicationExpression.read s = .value f t) : colon.read t = .mismatch := by
  rw [Rule.read_eq] at h
  obtain ⟨first, u, hfirst, h⟩ := Reading.bind_eq_value.mp h
  obtain ⟨chain, v, hchain, h⟩ := Reading.bind_eq_value.mp h
  obtain ⟨-, rfl⟩ := Reading.value.inj h
  obtain ⟨f', t', hf', harguments⟩ := Reading.bind_eq_value.mp
    ((Rule.read_eq .applicationExpression s).symm.trans hfirst)
  obtain ⟨rfl, rfl⟩ := Reading.value.inj ((show Rule.firstApplicationExpression.read s = _ from hf').symm.trans hf)
  obtain ⟨a, w, hargument⟩ | ⟨-, rfl⟩ := readBy_foldMany_cases harguments
  · obtain ⟨_, v, hspace, hargument⟩ := Reading.bind_eq_value.mp hargument
    refine read_colon_mismatch (read_whitespace_of_whitespace1 hspace) ?_
    have hhead := @Rule.head_of_read _ _ .importExpression _ hargument
    exact head_ne hhead (by decide)
  · obtain ⟨p, w, htail⟩ | ⟨-, rfl⟩ := readBy_foldMany_cases hchain
    · obtain ⟨op, v, hop, -⟩ := Reading.bind_eq_value.mp htail
      obtain ⟨_, z, hspace, hop⟩ := Reading.bind_eq_value.mp hop
      exact read_colon_mismatch hspace (head_ne (head_of_operator hop) (by decide))
    · rfl

/-! ## No longer form -/

/-- The operands of a `merge`. -/
abbrev mergeOperands : Grammar (Expr × Expr) := do
  keyword "merge"
  whitespace1
  let handler ← call .importExpression
  whitespace1
  let union ← call .importExpression
  return (handler, union)

/-- The operand of a `toMap`. -/
abbrev toMapOperand : Grammar Expr := do
  keyword "toMap"
  whitespace1
  call .importExpression

theorem read_mergeApplication (s : List Char) :
    mergeApplication.read s =
      (mergeOperands >>= fun p => return .merge p.1 p.2 none : Grammar Expr).read s := by
  simp only [Grammar.read, mergeApplication, readBy_bind, readBy_pure, Reading.bind_assoc,
    Reading.bind_value]

theorem read_mergeExpression (s : List Char) :
    Rule.mergeExpression.read s =
      (mergeOperands >>= fun p => colon >>= fun _ => (do
        return .merge p.1 p.2 (some (← call .applicationExpression)) : Grammar Expr)).read s := by
  rw [Rule.read_eq]
  simp only [Grammar.read, Rule.body, mergeExpression, readBy_bind, readBy_pure,
    Reading.bind_assoc, Reading.bind_value]

theorem read_toMapApplication (s : List Char) :
    toMapApplication.read s =
      (toMapOperand >>= fun r => return .toMap r none : Grammar Expr).read s := by
  simp only [Grammar.read, toMapApplication, readBy_bind, Reading.bind_assoc]

theorem read_toMapExpression (s : List Char) :
    Rule.toMapExpression.read s =
      (toMapOperand >>= fun r => colon >>= fun _ => (do
        return .toMap r (some (← call .applicationExpression)) : Grammar Expr)).read s := by
  rw [Rule.read_eq]
  simp only [Grammar.read, Rule.body, toMapExpression, readBy_bind, Reading.bind_assoc]

section Whole

variable (h : Rule.operatorExpression.read s = .value e [])

include h

theorem read_first_of_operator :
    ∃ f t, Rule.firstApplicationExpression.read s = .value f t := by
  rw [Rule.read_eq] at h
  obtain ⟨first, u, hfirst, -⟩ := Reading.bind_eq_value.mp h
  have hfirst : Rule.applicationExpression.read s = .value first u := hfirst
  rw [Rule.read_eq] at hfirst
  obtain ⟨f, t, hf, -⟩ := Reading.bind_eq_value.mp hfirst
  exact ⟨f, t, hf⟩

/-- A form with a type does not match if what it is without the type does not match, or is what the
chain begins with. -/
theorem read_typed_mismatch {β : Type} {application : Grammar Expr} {operands : Grammar β}
    {f : β → Expr} {next : β → Grammar Expr}
    (happlication : application.read s = (operands >>= fun b => return f b : Grammar Expr).read s)
    (hfirst : application.read s = .mismatch ∨
      application.read s = Rule.firstApplicationExpression.read s) :
    (operands >>= fun b => colon >>= fun _ => next b).read s = .mismatch := by
  refine (readBy_bind operands _ s).trans ?_
  rw [happlication] at hfirst
  obtain hnone | hsome := hfirst
  · obtain hnone | ⟨b, t, -, hpure⟩ := Reading.bind_eq_mismatch.mp hnone
    · rw [hnone, Reading.bind_mismatch]
    · cases hpure
  · obtain ⟨a, t, ha⟩ := read_first_of_operator h
    obtain ⟨b, u, hb, hpure⟩ := Reading.bind_eq_value.mp (hsome.trans ha)
    obtain ⟨-, rfl⟩ := Reading.value.inj hpure
    have hcolon : colon.readBy Rule.read u = .mismatch := read_colon_of_operator h ha
    simp only [hb, Reading.bind_value, readBy_bind, hcolon, Reading.bind_mismatch]

theorem read_mergeExpression_mismatch : Rule.mergeExpression.read s = .mismatch := by
  rw [read_mergeExpression]
  refine read_typed_mismatch h (read_mergeApplication s) ?_
  have hfirst : Rule.firstApplicationExpression.read s = (mergeApplication.read s).orElse _ :=
    Rule.read_eq ..
  cases hm : mergeApplication.read s with
  | mismatch => exact .inl rfl
  | _ => exact .inr (by rw [hfirst, hm]; rfl)

theorem read_toMapExpression_mismatch : Rule.toMapExpression.read s = .mismatch := by
  rw [read_toMapExpression]
  refine read_typed_mismatch h (read_toMapApplication s) ?_
  cases ht : s.head?.any (· == 't') with
  | false =>
    have hword : (keyword "toMap").readBy Rule.read s = .mismatch :=
      beginsWith_keyword "toMap" (by decide) s ht
    exact .inl (by simp only [Grammar.read, toMapApplication, readBy_bind, hword,
      Reading.bind_mismatch])
  | true =>
    -- No other word begins with the same letter.
    have hletter : s.head?.any (· != 't') = false := by
      obtain ⟨c, r, rfl, hc⟩ := head?_of_any ht
      obtain rfl := beq_iff_eq.mp hc
      rfl
    have hmerge : (keyword "merge").readBy Rule.read s = .mismatch :=
      beginsWith_keyword "merge" (by decide) s hletter
    have hsome : (keyword "Some").readBy Rule.read s = .mismatch :=
      beginsWith_keyword "Some" (by decide) s hletter
    have hfirst : Rule.firstApplicationExpression.read s =
        (toMapApplication.read s).orElse ((choice [call .importExpression]).read s) := by
      refine (Rule.read_eq ..).trans ?_
      simp only [Rule.body, firstApplicationExpression, readBy_choice_cons, mergeApplication,
        someApplication, readBy_bind, hmerge, hsome, Reading.bind_mismatch,
        Reading.orElse_mismatch]
    cases hm : toMapApplication.read s with
    | mismatch => exact .inl rfl
    | _ => exact .inr (by rw [hfirst, hm]; rfl)

/-- The text lands in front of its own end. -/
theorem lands_whole : ∃ n, (Seam.cutting []).Lands n (call .operatorExpression) s e [] := by
  refine Seam.lands_of_read ?_
  rw [Seam.cutting_was, Seam.cutting_was, List.append_nil, List.append_nil]
  exact h

theorem read_form_mismatch {word : String} (hm : word ∈ Seam.formWords) :
    (keyword word).readBy Rule.read s = .mismatch := by
  obtain ⟨n, hlands⟩ := lands_whole h
  have hread := (Seam.leads_form_operator hm (E := fun _ _ => True) s e [] hlands trivial).read_now
  rw [Seam.cutting_now] at hread
  exact hread

/-- No longer form begins where a chain takes the whole text. -/
theorem noLongerForm_of_operator : NoLongerForm s := by
  have hhead : s.head?.any operandStart = true := @Rule.head_of_read _ _ .operatorExpression _ h
  obtain ⟨c, r, rfl, hc⟩ := head?_of_any hhead
  have hother : ∀ {text : List Char}, text.all (fun d => !operandStart d) = true →
      text.contains c = false := by
    intro text ht
    refine Bool.eq_false_iff.mpr fun hm => ?_
    have hd := List.all_eq_true.mp ht c (List.contains_iff_mem.mp hm)
    rw [hc] at hd
    cases hd
  have hif := read_form_mismatch h (show "if" ∈ Seam.formWords by decide)
  have hlet := read_form_mismatch h (show "let" ∈ Seam.formWords by decide)
  have hforall := read_form_mismatch h (show "forall" ∈ Seam.formWords by decide)
  have hletBinding : (call .letBinding).readBy Rule.read (c :: r) = .mismatch := by
    refine (Rule.read_eq .letBinding _).trans ?_
    simp only [Rule.body, letBinding, readBy_bind, hlet, Reading.bind_mismatch]
  have hsymbol : (c :: r).head?.any "∀".toList.contains = false := hother (by decide)
  have haccept : (accept "∀").readBy Rule.read (c :: r) = .value false (c :: r) :=
    readBy_accept_of_head "∀" (by decide) hsymbol
  obtain ⟨n, hlands⟩ := lands_whole h
  have hempty := (Seam.leads_bracket (E := fun _ _ => True) _ e [] hlands trivial).read_now
  rw [Seam.cutting_now] at hempty
  exact {
    lambda := Rule.read_of_head rfl .lambdaExpression (hother (by decide))
    conditional := by
      rw [Rule.read_eq]
      simp only [Rule.body, ifExpression, readBy_bind, hif, Reading.bind_mismatch]
    letIn := by
      rw [Rule.read_eq]
      simp only [Rule.body, letExpression, readBy_bind, hletBinding, Reading.bind_mismatch]
    pi := by
      rw [Rule.read_eq]
      simp only [Rule.body, forallExpression, readBy_bind, haccept, Reading.bind_value,
        Bool.false_eq_true, if_false, hforall, Reading.bind_mismatch]
    merge := read_mergeExpression_mismatch h
    emptyList := (Rule.read_eq ..).trans hempty
    toMap := read_toMapExpression_mismatch h }

/-- A chain that takes a whole text is what is read there. -/
theorem read_expression_of_operator : Rule.expression.read s = .value e [] :=
  read_expression_operator (noLongerForm_of_operator h) h (Closes.ends (.inl rfl))

end Whole

/-! ## Operators -/

/-- No longer spelling is at the beginning of a shorter one with a space behind it. -/
theorem find?_spelling {p : Operator.Spelling} (hp : p ∈ Operator.spellings) (r : List Char) :
    (Operator.spellings.find? fun q => q.text.toList.isPrefixOf (p.text.toList ++ ' ' :: r)) =
      some p := by
  simp only [Operator.spellings, List.mem_cons, List.not_mem_nil, or_false] at hp
  obtain rfl | rfl | rfl | rfl | rfl | rfl | rfl | rfl | rfl | rfl | rfl | rfl | rfl | rfl | rfl := hp
    <;> rfl

/-- An operator with a space behind it is no argument: a slash begins no path there, and a plus no
number. -/
theorem refuses_spelling {p : Operator.Spelling} (hp : p ∈ Operator.spellings) (r : List Char) :
    Grammar.Refuses (· = p.text.toList ++ ' ' :: r) 5 (call .importExpression) := by
  have hslash : ∀ {d : Char} {t : List Char}, path d = false → d ≠ '"' →
      Grammar.Refuses (· = '/' :: d :: t) 5 (call .importExpression) :=
    fun hd hq => Rule.refuses_importExpression_slash.mono
      (fun _ hs => ⟨_, _, hs, hd, hq⟩) (Nat.le_refl 5)
  have hplus : ∀ {d : Char} {t : List Char}, (digit d || d == 'I') = false →
      Grammar.Refuses (· = '+' :: d :: t) 5 (call .importExpression) :=
    fun hd => Rule.refuses_importExpression_sign.mono
      (fun _ hs => ⟨_, _, hs, .inl rfl, hd⟩) (Nat.le_refl 5)
  have hother : ∀ {c : Char} {t : List Char}, operandStart c = false →
      Grammar.Refuses (· = c :: t) 5 (call .importExpression) := by
    intro c t hc
    have hopens : Grammar.OpensWith operandStart 5 (call .importExpression) :=
      Rule.opens_importExpression
    exact hopens.mono (fun _ hs => hs ▸ hc) (Nat.le_refl 5)
  simp only [Operator.spellings, List.mem_cons, List.not_mem_nil, or_false] at hp
  obtain rfl | rfl | rfl | rfl | rfl | rfl | rfl | rfl | rfl | rfl | rfl | rfl | rfl | rfl | rfl := hp
  all_goals
    first
    | exact hslash (by decide) (by decide)
    | exact hplus (by decide)
    | exact hother (by decide)

theorem head_spelling : ∀ p ∈ Operator.spellings,
    p.text.toList.head?.any Seam.operatorStart = true := by decide

/-- Behind an operand there is a space, and something more. -/
def Seam.spaced (rest : List Char) : Seam :=
  ⟨[], [], ' ' :: rest, 5, .inr ⟨rfl, ' ', rest, rfl, .inl rfl⟩, .inr rfl⟩

theorem edgeApplication_spelling {p : Operator.Spelling} (hp : p ∈ Operator.spellings)
    (r : List Char) :
    (Seam.spaced (p.text.toList ++ ' ' :: r)).EdgeApplication (p.text.toList ++ ' ' :: r) := by
  obtain ⟨c, t, ht, hc⟩ := head?_of_any (head_spelling p hp)
  have hother : ∀ {chars : CharClass}, "/+|&=!⩓⫽∧?#*".toList.all (fun c => !chars c) = true →
      (p.text.toList ++ ' ' :: r).head?.any chars = false := by
    intro chars hall
    rw [ht]
    simpa using List.all_eq_true.mp hall c (List.contains_iff_mem.mp hc)
  exact {
    space := readBy_whitespace_space (Whitespace.tight_of_head (hother (by decide)))
    head := hother (by decide)
    argument := fun _ => refuses_spelling hp r }

/-! ## Operands -/

/-- What an application takes as a whole. -/
abbrev Whole (s : List Char) (e : Expr) : Prop := Rule.applicationExpression.read s = .value e []

/-- In front of a space and an operator an operand is read as it is by itself. -/
theorem Whole.read_spaced {p : Operator.Spelling} (h : Whole s e) (hp : p ∈ Operator.spellings)
    (r : List Char) :
    Rule.applicationExpression.read (s ++ ' ' :: (p.text.toList ++ ' ' :: r)) =
      .value e (' ' :: (p.text.toList ++ ' ' :: r)) := by
  let T := Seam.spaced (p.text.toList ++ ' ' :: r)
  have hwas : ∀ x, T.was x = x := List.append_nil
  obtain ⟨n, hlands⟩ : ∃ n, T.Lands n (call .applicationExpression) s e [] := by
    refine Seam.lands_of_read ?_
    rw [hwas, hwas]
    exact h
  have hends := (edgeApplication_spelling hp r).ends
  exact (Seam.carries_rule n .applicationExpression s e [] hlands hends).read_now

/-- An operand begins with no whitespace, unless it begins with a brace and a line comment: there a
block comment begins if whitespace may stand there. -/
theorem Whole.tight (h : Whole s e) (hopen : "\x7b-".toList.isPrefixOf s = false) {r : List Char}
    (hr : r = [] ∨ ∃ t, r = ' ' :: t) : Whitespace.Tight (s ++ r) := by
  have hhead : s.head?.any operandStart = true :=
    @Rule.head_of_read _ _ .applicationExpression _ h
  obtain ⟨c, t, rfl, hc⟩ := head?_of_any hhead
  have hrest : t.head? ≠ some '-' → (t ++ r).head? ≠ some '-' := by
    intro ht
    cases t with
    | cons d t => exact ht
    | nil => obtain rfl | ⟨t, rfl⟩ := hr <;> exact fun he => by cases he
  by_cases hminus : c = '-'
  · -- Two signs begin no number.
    refine Whitespace.tight_of_second (.inl hminus) (hrest fun ht => ?_)
    subst hminus
    have hsign : BareSign ('-' :: t) := ⟨'-', t, rfl, .inr rfl, by rw [ht]; rfl⟩
    have hnone := read_applicationExpression_of_operand (noApplicationWord_of_first rfl)
      (Rule.refuses_importExpression_sign.read hsign)
    cases hnone.symm.trans h
  by_cases hbrace : c = '{'
  · refine Whitespace.tight_of_second (.inr hbrace) (hrest fun ht => ?_)
    obtain ⟨v, rfl⟩ := List.head?_eq_some_iff.mp ht
    subst hbrace
    cases hopen
  refine Whitespace.tight_of_head (Bool.eq_false_iff.mpr fun hm => ?_)
  have hspace : [' ', '\t', '\n', '\r'].all (fun d => !operandStart d) = true := by decide
  have hmem : c ∈ [' ', '\t', '\n', '\r'] := by
    simpa [hminus, hbrace] using List.contains_iff_mem.mp hm
  have hnone := List.all_eq_true.mp hspace c hmem
  rw [hc] at hnone
  cases hnone

/-! ## Chains -/

/-- An operand of a chain, with the spelling in front of it. -/
structure Link where
  spelling : Operator.Spelling
  text : List Char
  value : Expr

namespace Link

/-- The operators are spelled as they may be, and the operands stand alone. -/
structure Valid (l : Link) : Prop where
  spelling : l.spelling ∈ Operator.spellings
  whole : Whole l.text l.value
  noComment : "\x7b-".toList.isPrefixOf l.text = false

/-- The text of a link, behind the operand in front of it. -/
def chars (l : Link) : List Char := ' ' :: (l.spelling.text.toList ++ ' ' :: l.text)

/-- The operator and its right operand. -/
def item (l : Link) : Operator × Expr := (l.spelling.operator, l.value)

end Link

variable {links : List Link}

theorem Whole.read_links (h : Whole s e) (hlinks : ∀ l ∈ links, l.Valid) :
    Rule.applicationExpression.read (s ++ links.flatMap Link.chars) =
      .value e (links.flatMap Link.chars) := by
  cases links with
  | nil =>
    rw [List.flatMap_nil, List.append_nil]
    exact h
  | cons l links =>
    have hl := hlinks l List.mem_cons_self
    have hread := h.read_spaced hl.spelling (l.text ++ links.flatMap Link.chars)
    simpa [Link.chars] using hread

theorem links_head (links : List Link) :
    links.flatMap Link.chars = [] ∨ ∃ t, links.flatMap Link.chars = ' ' :: t := by
  cases links with
  | nil => exact .inl rfl
  | cons l links => exact .inr ⟨_, rfl⟩

/-- An operator between spaces is read as it is spelled. -/
theorem read_spelling {p : Operator.Spelling} (hp : p ∈ Operator.spellings)
    (hs : Whitespace.Tight s) :
    binaryOperator.read (' ' :: (p.text.toList ++ ' ' :: s)) = .value p.operator s := by
  have hspace : whitespace.readBy Rule.read (' ' :: (p.text.toList ++ ' ' :: s)) =
      .value () (p.text.toList ++ ' ' :: s) := (edgeApplication_spelling hp s).space
  have hdrop : (p.text.toList ++ ' ' :: s).drop p.text.length = ' ' :: s := by
    rw [← String.length_toList, List.drop_left]
  simp only [Grammar.read, binaryOperator, readBy_bind, hspace, Reading.bind_value, readBy_look,
    find?_spelling hp s, readBy_advance, hdrop]
  cases p.needsWhitespace with
  | true =>
    simp only [if_true, readBy_bind, readBy_whitespace1_space hs, Reading.bind_value, readBy_pure]
  | false =>
    simp only [Bool.false_eq_true, if_false, readBy_bind, readBy_whitespace_space hs,
      Reading.bind_value, readBy_pure]

theorem read_operatorTail {l : Link} (hl : l.Valid) (hlinks : ∀ l ∈ links, l.Valid) :
    operatorTail.read (l.chars ++ links.flatMap Link.chars) =
      .value l.item (links.flatMap Link.chars) := by
  have hright : (call .applicationExpression).readBy Rule.read
      (l.text ++ links.flatMap Link.chars) = .value l.value (links.flatMap Link.chars) :=
    hl.whole.read_links hlinks
  have hop := read_spelling hl.spelling (hl.whole.tight hl.noComment (links_head links))
  have hchars : l.chars ++ links.flatMap Link.chars =
      ' ' :: (l.spelling.text.toList ++ ' ' :: (l.text ++ links.flatMap Link.chars)) := by
    simp [Link.chars]
  rw [Grammar.read] at hop ⊢
  simp only [hchars, operatorTail, readBy_bind, hop, hright, Reading.bind_value, readBy_pure]
  rfl

theorem folds_links (hlinks : ∀ l ∈ links, l.Valid) (chain : Pending Expr) :
    Folds Rule.read operatorTail (fun chain p => chain.push Tree.operation p.1 p.2) chain
      (links.flatMap Link.chars)
      (.value ((links.map Link.item).foldl (fun chain p => chain.push Tree.operation p.1 p.2) chain)
        []) := by
  induction links generalizing chain with
  | nil => exact .none _ _ rfl
  | cons l links ih =>
    obtain ⟨hl, hrest⟩ := List.forall_mem_cons.mp hlinks
    rw [List.flatMap_cons]
    refine .some (read_operatorTail hl hrest) ?_ (ih hrest _)
    rw [List.length_append]
    have hpos : 0 < l.chars.length := Nat.succ_pos _
    omega

theorem read_links (h : Whole s e) (hlinks : ∀ l ∈ links, l.Valid) :
    Rule.operatorExpression.read (s ++ links.flatMap Link.chars) =
      .value (((links.map Link.item).foldl (fun chain p => chain.push Tree.operation p.1 p.2)
        (Pending.start e)).close Tree.operation) [] := by
  have hfirst : (call .applicationExpression).readBy Rule.read (s ++ links.flatMap Link.chars) =
      .value e (links.flatMap Link.chars) := h.read_links hlinks
  rw [Rule.read_eq]
  simp only [Rule.body, operatorExpression, readBy_bind, hfirst, Reading.bind_value,
    readBy_foldMany (folds_links hlinks (Pending.start e)), readBy_pure]

/-! ## Sources -/

/-- A text that an application takes as a whole when there is nothing else. -/
def IsOperand (text : String) (e : Expr) : Prop :=
  ∃ settings, (runFrom settings text.toList (call .applicationExpression)).result = .ok e ∧
    (runFrom settings text.toList (call .applicationExpression)).state.cursor.rest = []

theorem IsOperand.whole {text : String} (h : IsOperand text e) : Whole text.toList e := by
  obtain ⟨settings, hresult, hrest⟩ := h
  have hread := runFrom_ok hresult
  rw [hrest] at hread
  exact hread

/-- The source of a chain: the first operand, then every operator and its right operand, with a
space in front of each. -/
def chainText (first : String) (rest : List (Operator.Spelling × String)) : String :=
  rest.foldl (fun text p => text ++ " " ++ p.1.text ++ " " ++ p.2) first

theorem chainText_toList (first : String) (links : List Link) :
    (chainText first (links.map fun l => (l.spelling, String.ofList l.text))).toList =
      first.toList ++ links.flatMap Link.chars := by
  induction links generalizing first with
  | nil => simp [chainText]
  | cons l links ih =>
    have hstep : chainText first ((l :: links).map fun l => (l.spelling, String.ofList l.text)) =
      chainText (first ++ " " ++ l.spelling.text ++ " " ++ String.ofList l.text)
        (links.map fun l => (l.spelling, String.ofList l.text)) := rfl
    rw [hstep, ih]
    simp [Link.chars]

/-- A chain of operands with spaces between them is read as the tree of the reference grammar. -/
theorem read_chain {first : List Char} (hfirst : Whole first e)
    (hcomment : "\x7b-".toList.isPrefixOf first = false) (hlinks : ∀ l ∈ links, l.Valid) :
    completeExpression.read (first ++ links.flatMap Link.chars) =
      .value ((cascade Operator.all e (links.map Link.item)).eval Tree.operation) [] := by
  have htight : Whitespace.Tight (first ++ links.flatMap Link.chars) :=
    hfirst.tight hcomment (links_head links)
  have hoperator := read_links hfirst hlinks
  rw [show (links.map Link.item).foldl _ _ = (Pending.start e).pushAll Tree.operation _ from rfl,
    close_eq_cascade] at hoperator
  have hexpression : (call .expression).readBy Rule.read (first ++ links.flatMap Link.chars) = _ :=
    read_expression_of_operator hoperator
  simp only [Grammar.read, completeExpression, readBy_bind, readBy_whitespace_tight htight,
    hexpression, readBy_whitespace_tight (s := []) rfl, Reading.bind_value, readBy_pure]

/-- A chain of operands with spaces between them is parsed to the tree of the reference grammar, with
whatever spellings of the operators: in that tree the operands stand in order with the spelled operators
between them. An operand is what an application takes as a whole when there is nothing else. None may
begin with a brace and a hyphen, which in a chain begin a block comment. -/
theorem parse_chain (first : String) (e : Expr) (rest : List (Operator.Spelling × String × Expr))
    (hfirst : IsOperand first e)
    (hrest : ∀ p ∈ rest, p.1 ∈ Operator.spellings ∧ IsOperand p.2.1 p.2.2)
    (hcomment : ∀ text ∈ first :: rest.map (·.2.1), "\x7b-".toList.isPrefixOf text.toList = false) :
    let source := chainText first (rest.map fun p => (p.1, p.2.1))
    let items := rest.map fun p => (p.1.operator, p.2.2)
    let tree := cascade Operator.all e items
    (∀ settings, parse settings source = .ok (tree.eval Tree.operation) ∨
      nests (parse settings source) = true) ∧
    (∃ n, ∀ stack ≥ n, ∃ m, ∀ m' ≥ m, ∀ memoize,
      parse ⟨some m', memoize, stack⟩ source = .ok (tree.eval Tree.operation)) ∧
    tree.reading = chainItems e items := by
  intro source items tree
  let links : List Link := rest.map fun p => ⟨p.1, p.2.1.toList, p.2.2⟩
  have hlinks : ∀ l ∈ links, l.Valid := by
    intro l hl
    obtain ⟨p, hp, rfl⟩ := List.mem_map.mp hl
    have htext : p.2.1 ∈ first :: rest.map (·.2.1) :=
      List.mem_cons_of_mem _ (List.mem_map_of_mem hp)
    exact ⟨(hrest p hp).1, (hrest p hp).2.whole, hcomment _ htext⟩
  have hsource : source.toList = first.toList ++ links.flatMap Link.chars := by
    rw [← chainText_toList]
    simp [source, links, Function.comp_def]
  have hitems : links.map Link.item = items := by
    simp [items, links, Link.item, Function.comp_def]
  have hread : completeExpression.read source.toList = .value (tree.eval Tree.operation) [] := by
    have hread := read_chain hfirst.whole (hcomment first List.mem_cons_self) hlinks
    rwa [hitems, ← hsource] at hread
  exact ⟨parse_or_nests hread, parse_of_read hread, (cascade_all_covers e items).reading⟩

/-- A path, an application and a sign, with operators that could go on as a path and as a query. -/
theorem parse_chain_path :
    let here : Expr := .embedded (.mk (.path .here ["a"]) none .code)
    let apply : Expr := .app (.variable "f" 0) (.variable "x" 0)
    (∀ settings, parse settings "./a // f x ? +1" =
        .ok (.operation .importAlternative (.operation .prefer here apply) (.integer 1)) ∨
      nests (parse settings "./a // f x ? +1") = true) ∧
    (∃ n, ∀ stack ≥ n, ∃ m, ∀ m' ≥ m, ∀ memoize, parse ⟨some m', memoize, stack⟩ "./a // f x ? +1" =
      .ok (.operation .importAlternative (.operation .prefer here apply) (.integer 1))) := by
  intro here apply
  have hhere : IsOperand "./a" here :=
    ⟨⟨some 1, false, 40⟩, eq_ok_of_toOption (by decide +kernel), by decide +kernel⟩
  have happly : IsOperand "f x" apply :=
    ⟨⟨some 1, false, 40⟩, eq_ok_of_toOption (by decide +kernel), by decide +kernel⟩
  have hone : IsOperand "+1" (.integer 1) :=
    ⟨⟨some 1, false, 40⟩, eq_ok_of_toOption (by decide +kernel), by decide +kernel⟩
  obtain ⟨hall, hlarge, -⟩ := parse_chain "./a" here
    [(⟨"//", .prefer, false⟩, "f x", apply), (⟨"?", .importAlternative, true⟩, "+1", .integer 1)]
    hhere
    (List.forall_mem_cons.mpr ⟨⟨by decide, happly⟩, List.forall_mem_singleton.mpr ⟨by decide, hone⟩⟩)
    (by decide)
  exact ⟨hall, hlarge⟩

/-- Between braces there may be a comment, but where whitespace may stand the brace is the beginning
of one that is never closed. -/
theorem parse_commented_braces :
    IsOperand "\x7b--c\n\x7d" (.record []) ∧
      ∀ settings, parse settings (chainText "\x7b--c\n\x7d" []) ≠ .ok (.record []) := by
  refine ⟨⟨⟨some 1, false, 40⟩, eq_ok_of_toOption (by decide +kernel), by decide +kernel⟩, ?_⟩
  intro settings h
  have hopen : whitespace.readBy Rule.read "\x7b--c\n\x7d".toList = .abort (.defect .openComment) :=
    readBy_whitespace_unclosed (by decide)
  have hread : completeExpression.readBy Rule.read "\x7b--c\n\x7d".toList = .value (.record []) [] :=
    parse_ok h
  rw [completeExpression, readBy_bind, hopen] at hread
  cases hread

end DhallSyntax
