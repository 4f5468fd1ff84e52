import DhallSyntax.Proofs.Grammar.Faults
import DhallSyntax.Proofs.Reading.Leaves
import DhallSyntax.Proofs.Reading.Parse

/-!
Numbers beyond the bounds of decimals. A parse that ends with one has met the text of a double that
is no decimal (`Overflows`), and such a text by itself ends every parse whose bounds are large
enough: `numberRange_literals`.
-/

namespace DhallSyntax

variable {α β σ : Type}

/-! ## What is left is the end of the text -/

/-- What a reading leaves of a text is the end of it. -/
def Reading.Leaves (r : Reading α) (s : List Char) : Prop := ∀ a t, r = .value a t → t <:+ s

theorem Reading.Leaves.bind {r : Reading β} {s : List Char} {next : β → List Char → Reading α}
    (h : r.Leaves s) (hn : ∀ b t, (next b t).Leaves t) : (r.bind next).Leaves s := by
  intro a t he
  obtain ⟨b, u, hr, hnext⟩ := Reading.bind_eq_value.mp he
  exact (hn b u a t hnext).trans (h b u hr)

theorem Reading.iterateWithin_leaves {step : σ → List Char → Reading (σ ⊕ α)}
    (h : ∀ state s, (step state s).Leaves s) (bound : List Char) (state : σ) (s : List Char) :
    (iterateWithin step bound state s).Leaves s := fun _ t he =>
  iterateWithin_induction (P := fun _ s => t <:+ s) (fun state s hstep => h state s _ t hstep)
    (fun state s _ s' hstep hs' => hs'.trans (h state s _ s' hstep)) he

theorem Grammar.readBy_leaves {rules : RuleReader} (h : ∀ rule s, (rules rule s).Leaves s)
    (g : Grammar α) (s : List Char) : (g.readBy rules s).Leaves s := by
  induction g generalizing s with
  | bind first next ihf ihn => exact (ihf s).bind ihn
  | orElse first second ihf ihs =>
    intro a t he
    obtain he | ⟨-, he⟩ := Reading.orElse_eq_value.mp he
    · exact ihf s a t he
    · exact ihs s a t he
  | call rule => exact h rule s
  | nested body ih => exact ih s
  | iterate state step ih => exact Reading.iterateWithin_leaves ih s state s
  | accept literal =>
    intro a t he
    rw [Grammar.readBy] at he
    split at he
    · cases he
      exact List.drop_suffix _ s
    · cases he
      exact List.suffix_refl s
  | advance count =>
    intro a t he
    cases he
    exact List.drop_suffix count s
  | pure a => exact fun _ _ he => by cases he; exact List.suffix_refl s
  | look view => exact fun _ _ he => by cases he; exact List.suffix_refl s
  | fail => exact fun _ _ he => by cases he
  | mismatch => exact fun _ _ he => by cases he
  | abort => exact fun _ _ he => by cases he

/-! ## Doubles that are no decimals -/

/-- Whether the text of a double that is no decimal is somewhere in a text. -/
def Overflows (s : List Char) : Prop :=
  ∃ d : DoubleText, d.chars <:+: s ∧ Decimal.read? (String.ofList d.chars) = none

theorem Overflows.of_suffix {s t : List Char} (h : t <:+ s) (ht : Overflows t) : Overflows s := by
  obtain ⟨d, hd, hread⟩ := ht
  exact ⟨d, hd.trans h.isInfix, hread⟩

/-- What is read of a text stays in it, and a number out of bounds is one of its doubles. -/
structure Reading.Sourced (r : Reading α) (s : List Char) : Prop where
  leaves : r.Leaves s
  overflows : r = .abort .numberRange → Overflows s

theorem Reading.Sourced.bind {r : Reading β} {s : List Char} {next : β → List Char → Reading α}
    (h : r.Sourced s) (hn : ∀ b t, (next b t).Sourced t) : (r.bind next).Sourced s := by
  refine ⟨h.leaves.bind fun b t => (hn b t).leaves, fun he => ?_⟩
  obtain he | ⟨b, t, hr, he⟩ := Reading.bind_eq_abort.mp he
  · exact h.overflows he
  · exact ((hn b t).overflows he).of_suffix (h.leaves b t hr)

theorem Reading.iterateWithin_sourced {step : σ → List Char → Reading (σ ⊕ α)}
    (h : ∀ state s, (step state s).Sourced s) (bound : List Char) (state : σ) (s : List Char) :
    (iterateWithin step bound state s).Sourced s := by
  have hlast : ∀ (a : α) t, (Reading.value a t).Sourced t := by
    refine fun a t => ⟨fun _ _ he => ?_, fun he => by cases he⟩
    cases he
    exact List.suffix_refl t
  induction bound generalizing state s with
  | nil =>
    unfold iterateWithin
    refine (h state s).bind fun x t => ?_
    cases x with
    | inl next => exact ⟨(fun _ _ he => by cases he), fun he => by cases he⟩
    | inr a => exact hlast a t
  | cons _ bound ih =>
    unfold iterateWithin
    refine (h state s).bind fun x t => ?_
    cases x with
    | inl next => exact ih next t
    | inr a => exact hlast a t

/-- A part of a grammar that does not check numbers itself. -/
theorem Grammar.readBy_sourced {rules : RuleReader} (h : ∀ rule s, (rules rule s).Sourced s)
    {g : Grammar α} (hg : g.DefectsOnly) (s : List Char) : (g.readBy rules s).Sourced s := by
  refine ⟨Grammar.readBy_leaves (fun rule s => (h rule s).leaves) g s, ?_⟩
  have hleaves : ∀ {γ : Type} (g : Grammar γ) s, (g.readBy rules s).Leaves s :=
    Grammar.readBy_leaves fun rule s => (h rule s).leaves
  induction g generalizing s with
  | bind first next ihf ihn =>
    have hfirst : (first.readBy rules s).Sourced s := ⟨hleaves first s, ihf hg.1 s⟩
    exact (hfirst.bind fun b t => ⟨hleaves (next b) t, ihn b (hg.2 b) t⟩).overflows
  | orElse first second ihf ihs =>
    intro he
    obtain he | ⟨-, he⟩ := Reading.orElse_eq_abort.mp he
    · exact ihf hg.1 s he
    · exact ihs hg.2 s he
  | call rule => exact (h rule s).overflows
  | nested body ih => exact ih hg.2 s
  | iterate state step ih =>
    exact (Reading.iterateWithin_sourced
      (fun state s => ⟨hleaves (step state) s, ih state (hg state) s⟩) s state s).overflows
  | abort fault back =>
    intro he
    cases he
    cases hg _ rfl
  | accept literal =>
    intro he
    rw [Grammar.readBy] at he
    split at he <;> cases he
  | _ => exact fun he => by cases he

theorem Grammar.doubleLiteral_overflows {rules : RuleReader} {s : List Char}
    (h : doubleLiteral.readBy rules s = .abort .numberRange) : Overflows s := by
  obtain hm | ⟨entry, -, t, hv⟩ | ⟨d, t, rfl, hd⟩ := @doubleLiteral_cases rules s
  · rw [hm] at h
    cases h
  · rw [hv] at h
    cases h
  · refine ⟨d, (List.prefix_append _ t).isInfix, ?_⟩
    rw [d.read?_chars]
    rw [hd] at h
    cases hv : d.value? with
    | none => rfl
    | some value => rw [hv] at h; cases h

theorem Rule.read_sourced (rule : Rule) (s : List Char) : (rule.read s).Sourced s := by
  refine Rule.read_induction (P := fun _ s r => r.Sourced s) (fun rule s => ?_)
    (fun rules h rule s => ?_) rule s
  · exact ⟨(fun _ _ he => nomatch he), fun he => nomatch he⟩
  · by_cases hr : rule = .doubleLiteral
    · subst hr
      exact ⟨Grammar.readBy_leaves (fun rule s => (h rule s).leaves) _ s,
        Grammar.doubleLiteral_overflows⟩
    · exact Grammar.readBy_sourced h (body_defectsOnly hr) s

theorem Grammar.overflows_of_read {g : Grammar α} (hg : g.DefectsOnly) {s : List Char}
    (h : g.read s = .abort .numberRange) : Overflows s :=
  (Grammar.readBy_sourced Rule.read_sourced hg s).overflows h

/-! ## A double that is no decimal, by itself -/

namespace Grammar

variable {s : List Char} {fault : Fault}

theorem read_application_abort (hp : PlainStart s)
    (h : Rule.primitiveExpression.read s = .abort fault) :
    Rule.applicationExpression.read s = .abort fault := by
  have hi : (call .importClause).read s = .mismatch := hp.noImport
  have hprimitive : (call .primitiveExpression).read s = .abort fault := h
  have hselector : (call .selectorExpression).read s = .abort fault := by
    refine (Rule.read_eq .selectorExpression s).trans ?_
    simp only [Rule.body, selectorExpression, readBy_bind, hprimitive, Reading.bind_abort]
  have himport : (call .importExpression).read s = .abort fault := by
    refine (Rule.read_eq .importExpression s).trans ?_
    simp only [Rule.body, importExpression, readBy_choice_cons, readBy_bind, hi, hselector,
      Reading.bind_mismatch, Reading.orElse_mismatch, Reading.orElse_abort]
  have hfirst : (call .firstApplicationExpression).read s = .abort fault := by
    refine (Rule.read_eq .firstApplicationExpression s).trans ?_
    simp only [Rule.body, firstApplicationExpression, readBy_choice_cons, mergeApplication,
      someApplication, toMapApplication, readBy_bind, hp.noWord.merge, hp.noWord.some,
      hp.noWord.toMap, himport, Reading.bind_mismatch, Reading.orElse_mismatch,
      Reading.orElse_abort]
  rw [Rule.read_eq]
  simp only [Rule.body, applicationExpression, readBy_bind, hfirst, Reading.bind_abort]

theorem read_expression_abort (hp : PlainStart s)
    (h : Rule.primitiveExpression.read s = .abort fault) :
    Rule.expression.read s = .abort fault := by
  have happlication : (call .applicationExpression).read s = .abort fault :=
    read_application_abort hp h
  have hoperator : (call .operatorExpression).read s = .abort fault := by
    refine (Rule.read_eq .operatorExpression s).trans ?_
    simp only [Rule.body, operatorExpression, readBy_bind, happlication, Reading.bind_abort]
  have harrow : Rule.arrowExpression.read s = .abort fault := by
    rw [Rule.read_eq]
    simp only [Rule.body, arrowExpression, readBy_bind, hoperator, Reading.bind_abort]
  rw [read_expression, hp.noForm.lambda, hp.noForm.conditional, hp.noForm.letIn, hp.noForm.pi,
    harrow]
  rfl

/-- The text of a double that is no decimal ends what reads it as an expression. -/
theorem read_overflow {d : DoubleText} (h : Decimal.read? (String.ofList d.chars) = none) :
    whitespace.read d.chars = .value () d.chars ∧
      Rule.expression.read d.chars = .abort .numberRange := by
  rw [d.read?_chars] at h
  have hread : Rule.doubleLiteral.read d.chars = .abort .numberRange := by
    have hd : doubleLiteral.read (d.chars ++ []) = _ := readBy_doubleLiteral d rfl
    rw [List.append_nil, h] at hd
    exact (Rule.read_eq _ _).trans hd
  have hstart : PlainStart d.chars :=
    plainStart_of_first (head_sign d.sign d.whole _ (CharClass.not_contains (by decide)))
  refine ⟨readBy_whitespace_tight (tight_sign d.sign d.whole _), read_expression_abort hstart ?_⟩
  rw [read_primitiveExpression, hread]
  rfl

end Grammar

/-- A parse of a source ends with a number out of bounds only if the text of a double that is no
decimal is somewhere in the source, and it does if the source is such a text, whatever the parser
keeps. -/
theorem numberRange_literals (source : String) :
    (∀ settings, parse settings source = .error .numberRange ∨
        parsePrefix settings source = .error .numberRange → Overflows source.toList) ∧
      ∀ d : DoubleText, d.chars = source.toList → Decimal.read? source = none →
        ∃ n, ∀ stack ≥ n, ∃ m, ∀ m' ≥ m, ∀ memoize,
          parse ⟨some m', memoize, stack⟩ source = .error .numberRange ∧
            parsePrefix ⟨some m', memoize, stack⟩ source = .error .numberRange := by
  constructor
  · rintro settings (h | h)
    · exact Grammar.overflows_of_read Grammar.defectsOnly_completeExpression
        (parse_numberRange h)
    · have hg : Grammar.leadingExpression.DefectsOnly := by simp [Grammar.leadingExpression]
      exact Grammar.overflows_of_read hg (parsePrefix_numberRange h)
  · intro d hd h
    rw [← String.ofList_toList (s := source), ← hd] at h
    obtain ⟨hwhitespace, hexpression⟩ := Grammar.read_overflow h
    have hcall : (Grammar.call .expression).read d.chars = .abort .numberRange := hexpression
    refine numberRange_of_read ?_ ?_
    · rw [← hd]
      simp only [Grammar.completeExpression, Grammar.readBy_bind, hwhitespace, hcall,
        Reading.bind_value, Reading.bind_abort]
    · rw [← hd]
      simp only [Grammar.leadingExpression, Grammar.readBy_bind, hwhitespace, hcall,
        Reading.bind_value]

/-- An exponent of nineteen digits, in a parse that ends with it. -/
theorem numberRange_literals_exponent :
    ∃ settings, parse settings "1e9999999999999999999" = .error .numberRange ∧
      Overflows "1e9999999999999999999".toList := by
  let nines : DigitRun := ⟨List.replicate 19 '9', by decide, List.all_eq_true.mp (by decide)⟩
  let d : DoubleText :=
    ⟨.none, ⟨['1'], by decide, List.all_eq_true.mp (by decide)⟩,
      .scaled ⟨'e', .inl rfl, .none, nines⟩⟩
  obtain ⟨n, hn⟩ := (numberRange_literals "1e9999999999999999999").2 d rfl (by decide +kernel)
  obtain ⟨m, hm⟩ := hn n (Nat.le_refl n)
  have hparse := (hm m (Nat.le_refl m) false).1
  exact ⟨_, hparse, (numberRange_literals _).1 _ (.inl hparse)⟩

end DhallSyntax
