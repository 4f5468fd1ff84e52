import DhallSyntax.Proofs.Reading.Solid

/-!
Loops that go round take something each time. Main statement: `body_advances`, this is so for
every loop in the body of every rule.
-/

namespace DhallSyntax

open CharClass

variable {α β σ : Type}

namespace Grammar

theorem read_length_le {g : Grammar α} {s t : List Char} {a : α} (h : g.read s = .value a t) :
    t.length ≤ s.length :=
  (readBy_leaves (fun rule s => (Rule.read_sourced rule s).leaves) g s a t h).length_le

/-! ## Parts that take something -/

/-- Whatever a part of a grammar yields, it takes a character. -/
def Takes (g : Grammar α) : Prop := ∀ s a t, g.read s = .value a t → t.length < s.length

theorem Ends.takes {g : Grammar α} (h : g.Ends (fun _ => false) Rule.read) : g.Takes := by
  intro s a t ha
  refine (h s a t ?_).length_lt
  rwa [soften_none]

theorem takes_call (rule : Rule) : (call rule).Takes := by
  intro s a t ha
  obtain ⟨n, hn⟩ := Rule.readUpTo_settles_read rule s
  have hread : Rule.softUpTo (fun _ => false) n rule s = .value a t := by
    rw [Rule.softUpTo_none, ← ha]
    exact hn n (Nat.le_refl n)
  exact Rule.softUpTo_shrinks n hread

theorem Takes.bind {first : Grammar β} {next : β → Grammar α} (h : first.Takes) :
    (first >>= next).Takes := by
  intro s a t ha
  obtain ⟨b, u, hb, hnext⟩ := Reading.bind_eq_value.mp ha
  exact Nat.lt_of_le_of_lt (read_length_le hnext) (h s b u hb)

theorem Takes.behind {first : Grammar β} {next : β → Grammar α} (hn : ∀ b, (next b).Takes) :
    (first >>= next).Takes := by
  intro s a t ha
  obtain ⟨b, u, hb, hnext⟩ := Reading.bind_eq_value.mp ha
  exact Nat.lt_of_lt_of_le (hn b u a t hnext) (read_length_le hb)

theorem takes_expectAny {literals : List String} (h : ∀ l ∈ literals, SolidText l) :
    (expectAny literals).Takes := (ends_expectAny h).takes

theorem takes_expect {literal : String} (h : SolidText literal) : (expect literal).Takes :=
  (ends_expect h).takes

theorem takes_keyword {word : String} (h : SolidText word) : (keyword word).Takes :=
  (ends_keyword h).takes

theorem readers_leave (rule : Rule) (s : List Char) : (rule.read s).Leaves s :=
  (Rule.read_sourced rule s).leaves

/-! ## Steps that take something unless they are the last -/

/-- A step of a loop that goes on takes a character. -/
def GoesOn (g : Grammar (σ ⊕ α)) : Prop :=
  ∀ s next t, g.read s = .value (.inl next) t → t.length < s.length

theorem Takes.goesOn {g : Grammar (σ ⊕ α)} (h : g.Takes) : g.GoesOn :=
  fun s next t ha => h s (.inl next) t ha

theorem goesOn_inr (a : α) : (Pure.pure (.inr a) : Grammar (σ ⊕ α)).GoesOn := by
  rintro _ _ _ ⟨⟩

theorem goesOn_fail (expectation : String) : (fail expectation : Grammar (σ ⊕ α)).GoesOn := by
  rintro _ _ _ ⟨⟩

theorem GoesOn.ite {p : Prop} [Decidable p] {g g' : Grammar (σ ⊕ α)} (h : g.GoesOn)
    (h' : g'.GoesOn) : (if p then g else g').GoesOn := by
  split
  · exact h
  · exact h'

theorem GoesOn.behind {first : Grammar β} {next : β → Grammar (σ ⊕ α)}
    (hn : ∀ b, (next b).GoesOn) : (first >>= next).GoesOn := by
  intro s state t ha
  obtain ⟨b, u, hb, hnext⟩ := Reading.bind_eq_value.mp ha
  exact Nat.lt_of_lt_of_le (hn b u state t hnext) (read_length_le hb)

/-- A literal that is there has been taken. -/
theorem GoesOn.accept {literal : String} {next : Bool → Grammar (σ ⊕ α)}
    (hl : literal.toList ≠ []) (hf : (next false).GoesOn) : (accept literal >>= next).GoesOn := by
  intro s state t ha
  obtain ⟨taken, u, hread, hnext⟩ := Reading.bind_eq_value.mp ha
  have hread : (Grammar.accept literal).readBy Rule.read s = .value taken u := hread
  rw [readBy_accept] at hread
  split at hread
  · rename_i hs
    cases hread
    obtain ⟨r, rfl⟩ := List.isPrefixOf_iff_prefix.mp hs
    have hpos := List.length_pos_iff.mpr hl
    have hle := read_length_le hnext
    rw [List.length_drop, List.length_append] at hle
    rw [List.length_append]
    omega
  · cases hread
    exact hf _ state t hnext

/-- A character that is there has been taken. -/
theorem GoesOn.takeIf {chars : CharClass} {next : Option Char → Grammar (σ ⊕ α)}
    (hf : (next none).GoesOn) : (takeIf chars >>= next).GoesOn := by
  intro s state t ha
  obtain ⟨c?, u, hread, hnext⟩ := Reading.bind_eq_value.mp ha
  have hread : (Grammar.takeIf chars).readBy Rule.read s = .value c? u := hread
  cases s with
  | nil =>
    rw [readBy_takeIf_nil] at hread
    cases hread
    exact hf _ state t hnext
  | cons c s =>
    rw [readBy_takeIf_cons] at hread
    split at hread
    · cases hread
      exact Nat.lt_succ_of_le (read_length_le hnext)
    · cases hread
      exact hf _ state t hnext

/-! ## Loops -/

/-- Every loop in a part of a grammar takes a character each time it goes round. -/
def Advances {α : Type} : Grammar α → Prop
  | .bind first next => first.Advances ∧ ∀ b, (next b).Advances
  | .orElse first second => first.Advances ∧ second.Advances
  | .nested body => body.Advances
  | .iterate _ step => ∀ state, (step state).Advances ∧ (step state).GoesOn
  | _ => True

@[simp] theorem advances_bind {first : Grammar β} {next : β → Grammar α} :
    (first >>= next).Advances ↔ first.Advances ∧ ∀ b, (next b).Advances := Iff.rfl

@[simp] theorem advances_pure {a : α} : (Pure.pure a : Grammar α).Advances := trivial

@[simp] theorem advances_value {a : α} : (Grammar.pure a).Advances := trivial

@[simp] theorem advances_look {view : List Char → α} : (look view).Advances := trivial

@[simp] theorem advances_accept {literal : String} : (accept literal).Advances := trivial

@[simp] theorem advances_advance {count : Nat} : (advance count).Advances := trivial

@[simp] theorem advances_fail {expectation : String} :
    (fail expectation : Grammar α).Advances := trivial

@[simp] theorem advances_mismatch : (mismatch : Grammar α).Advances := trivial

@[simp] theorem advances_call {rule : Rule} :
    @Advances (no_index rule.Result) (call rule) := trivial

@[simp] theorem advances_abort {fault : Fault} {back : Nat} :
    (abort fault back : Grammar α).Advances := trivial

@[simp] theorem advances_orElse {first second : Grammar α} :
    (orElse first second).Advances ↔ first.Advances ∧ second.Advances := Iff.rfl

@[simp] theorem advances_nested {body : Grammar α} : (nested body).Advances ↔ body.Advances :=
  Iff.rfl

theorem advances_iterate {state : σ} {step : σ → Grammar (σ ⊕ α)} :
    (iterate state step).Advances ↔ ∀ state, (step state).Advances ∧ (step state).GoesOn := Iff.rfl

@[simp] theorem advances_ite {p : Prop} [Decidable p] {g g' : Grammar α} :
    (if p then g else g').Advances ↔ (p → g.Advances) ∧ (¬ p → g'.Advances) := by
  split <;> simp_all

@[simp] theorem advances_choice {alternatives : List (Grammar α)} :
    (choice alternatives).Advances ↔ ∀ g ∈ alternatives, g.Advances := by
  induction alternatives with
  | nil => simp [choice]
  | cons g rest ih => simp [choice, ih]

@[simp] theorem advances_acceptAny {literals : List String} : (acceptAny literals).Advances := by
  induction literals with
  | nil => simp [acceptAny]
  | cons literal rest ih => simp [acceptAny, ih]

@[simp] theorem advances_expectAny {literals : List String} : (expectAny literals).Advances := by
  simp only [expectAny, advances_bind, advances_acceptAny, true_and]
  intro b
  cases b <;> simp

@[simp] theorem advances_optional? {part : Grammar α} :
    (optional? part).Advances ↔ part.Advances := by
  simp [optional?]

/-- A step that repeats a part goes on only if that matches. -/
theorem goesOn_repeat {part : Grammar α} (h : part.Takes) (f : σ → α → σ) (state : σ) :
    GoesOn (do
      match ← optional? part with
      | some value => return .inl (f state value)
      | none => return (.inr state : σ ⊕ σ)) := by
  intro s next t ha
  obtain ⟨a?, u, hread, hnext⟩ := Reading.bind_eq_value.mp ha
  obtain hread | ⟨-, hread⟩ := Reading.orElse_eq_value.mp hread
  · obtain ⟨a, v, hpart, hvalue⟩ := Reading.bind_eq_value.mp hread
    cases hvalue
    cases hnext
    exact h s a _ hpart
  · cases hread
    cases hnext

/-- A part that is repeated as long as it matches has to take something. -/
theorem advances_foldMany {part : Grammar α} (h : part.Takes) (f : σ → α → σ) (start : σ) :
    (foldMany part f start).Advances ↔ part.Advances := by
  simp only [foldMany, advances_iterate, advances_bind, advances_optional?]
  refine ⟨fun hall => (hall start).1.1, fun hpart state =>
    ⟨⟨hpart, fun b => ?_⟩, goesOn_repeat h f state⟩⟩
  cases b <;> simp

theorem advances_many {part : Grammar α} (h : part.Takes) :
    (many part).Advances ↔ part.Advances := by
  simp [many, advances_foldMany h]

@[simp] theorem advances_expect {literal : String} : (expect literal).Advances := by
  simp [expect]

@[simp] theorem advances_keyword {word : String} : (keyword word).Advances := by
  simp [keyword]

@[simp] theorem advances_takeWhile {chars : CharClass} : (takeWhile chars).Advances := by
  simp [takeWhile]

@[simp] theorem advances_takeWhile1 {chars : CharClass} {expected : String} :
    (takeWhile1 chars expected).Advances := by
  simp [takeWhile1]

@[simp] theorem advances_takeIf {chars : CharClass} : (takeIf chars).Advances := by
  simp only [takeIf, peek, advances_bind, advances_look, true_and]
  intro b
  cases b <;> simp

@[simp] theorem advances_whitespace : whitespace.Advances := by
  simp [whitespace]

@[simp] theorem advances_whitespace1 : whitespace1.Advances := by
  simp [whitespace1]

/-! ## Literals -/

theorem advances_doubleLiteral : doubleLiteral.Advances := by
  have hdecimal : ∀ negative whole fraction exponent,
      (decimal negative whole fraction exponent).Advances := by
    intro negative whole fraction exponent
    unfold decimal
    dsimp only
    split <;> simp
  simp only [doubleLiteral, advances_bind, advances_look, true_and]
  intro b
  cases b <;> simp [sign, digits, exponent, hdecimal]

theorem advances_bareLabel : bareLabel.Advances := by
  simp only [bareLabel, peek, advances_bind, advances_look, true_and]
  intro b
  cases b <;> simp

theorem advances_labelExcept (excluded : String → Bool) (expected : String) :
    (labelExcept excluded expected).Advances := by
  simp [labelExcept, bareLabelExcept, Grammar.quotedLabel, peek, advances_bareLabel]

theorem advances_identifier : identifier.Advances := by
  simp only [identifier, advances_bind, advances_optional?, advances_call, true_and]
  intro b
  cases b <;> simp [variableIndex, builtin, advances_bareLabel]

@[simp] theorem advances_completeExpression : completeExpression.Advances := by
  simp [completeExpression]

theorem advances_escapeSequence : escapeSequence.Advances := by
  simp only [escapeSequence, peek, advances_bind, advances_look, true_and]
  intro b
  cases b with
  | none => simp
  | some c =>
    dsimp only
    split <;> simp [unicodeEscape, scalar]

theorem advances_doubleQuoteStep (draft : TextDraft) : (doubleQuoteStep draft).Advances := by
  simp only [doubleQuoteStep, interpolation, advances_bind, advances_ite, advances_accept,
    advances_pure, advances_expect, advances_takeIf, advances_completeExpression,
    advances_escapeSequence, implies_true, true_and, and_true]
  intro _ _ _ _ _ _ b
  cases b <;> simp

theorem goesOn_doubleQuoteStep (draft : TextDraft) : (doubleQuoteStep draft).GoesOn :=
  .accept (by decide) <| .accept (by decide) <| .accept (by decide) <| .takeIf (goesOn_fail _)

theorem advances_singleQuoteStep (draft : TextDraft) : (singleQuoteStep draft).Advances := by
  simp only [singleQuoteStep, interpolation, advances_bind, advances_ite, advances_accept,
    advances_pure, advances_expect, advances_takeIf, advances_completeExpression,
    implies_true, true_and, and_true]
  intro _ _ _ _ _ _ _ _ _ _ b
  cases b <;> simp

theorem goesOn_singleQuoteStep (draft : TextDraft) : (singleQuoteStep draft).GoesOn :=
  .accept (by decide) <| .accept (by decide) <| .accept (by decide) <| .accept (by decide) <|
    .accept (by decide) <| .takeIf (goesOn_fail _)

/-! ## Imports -/

theorem advances_pathComponent : pathComponent.Advances := by
  simp [pathComponent]

theorem takes_pathComponent : pathComponent.Takes := (ends_pathComponent readers_leave).takes

/-- The slash in front of a segment is there. -/
theorem takes_urlPath : (do
    if ← look fun s => s.head? == some '/' then orElse pathComponent pathSegment
    else mismatch : Grammar String).Takes := by
  intro s a t ha
  obtain ⟨slash, u, hlook, hnext⟩ := Reading.bind_eq_value.mp ha
  cases hlook
  cases s with
  | nil => cases hnext
  | cons c s =>
    dsimp only at hnext
    split at hnext
    · obtain hcomponent | ⟨-, hsegment⟩ := Reading.orElse_eq_value.mp hnext
      · exact takes_pathComponent _ a t hcomponent
      · exact Nat.lt_succ_of_le (read_length_le (s := s) hsegment)
    · cases hnext

theorem advances_urlPath : urlPath.Advances := by
  rw [urlPath, advances_many takes_urlPath]
  simp [advances_pathComponent, pathSegment, takeLength]

theorem advances_httpImport : httpImport.Advances := by
  have hs : scheme.Advances := by simp [scheme]
  have hu : userinfo.Advances := by simp [userinfo, takeLength]
  have hh : host.Advances := by
    simp only [host, advances_bind, advances_look, true_and]
    intro b
    cases b <;> simp [takeLength]
  have hm : ∀ mark length, (marked mark length).Advances := by simp [marked, takeLength]
  have hc : usingClause.Advances := by simp [usingClause]
  simp only [httpImport, advances_bind, advances_optional?, advances_expect, hs, hu, hh, hm,
    advances_urlPath, hc, true_and]
  intro _ _ _ _ _ _ _ headers
  cases headers <;> simp

theorem advances_bashName : bashName.Advances := by
  simp only [bashName, peek, advances_bind, advances_look, true_and]
  intro b
  cases b <;> simp

theorem advances_quotedNameStep (name : List Char) : (quotedNameStep name).Advances := by
  simp only [quotedNameStep, peek, advances_bind, advances_look, advances_ite,
    advances_accept, advances_advance, advances_pure, advances_takeIf, implies_true, true_and]
  refine fun _ _ _ => ⟨fun _ b => ?_, fun _ b => ?_⟩
  · split <;> simp
  · cases b <;> simp

theorem goesOn_quotedNameStep (name : List Char) : (quotedNameStep name).GoesOn :=
  .behind fun _ => .ite (.behind fun _ => goesOn_inr _) <|
    .accept (by decide) <| .takeIf (goesOn_fail _)

theorem advances_envImport : envImport.Advances := by
  have hname : ∀ name, (quotedNameStep name).Advances ∧ (quotedNameStep name).GoesOn := fun name =>
    ⟨advances_quotedNameStep name, goesOn_quotedNameStep name⟩
  simp [envImport, advances_bashName, advances_iterate, hname]

/-! ## Expressions -/

theorem advances_binaryOperator : binaryOperator.Advances := by
  simp only [binaryOperator, advances_bind, advances_look, advances_whitespace, true_and]
  intro _ b
  cases b <;> simp

theorem takes_operatorTail : operatorTail.Takes :=
  .behind fun _ => (takes_call .applicationExpression).bind

theorem advances_operatorExpression : operatorExpression.Advances := by
  have htail : operatorTail.Advances := by simp [operatorTail, advances_binaryOperator]
  simp only [operatorExpression, advances_bind, advances_call, advances_foldMany takes_operatorTail,
    htail, advances_pure, implies_true, and_self]

theorem advances_applicationExpression : applicationExpression.Advances := by
  have hargument : (do whitespace1; call .importExpression : Grammar Expr).Takes :=
    .behind fun _ => takes_call .importExpression
  simp [applicationExpression, advances_foldMany hargument]

theorem advances_annotatedExpression : annotatedExpression.Advances := by
  simp only [annotatedExpression, colon, advances_bind, advances_optional?, advances_call,
    advances_whitespace, advances_expect, advances_whitespace1, implies_true, true_and]
  intro _ b
  cases b <;> simp

theorem advances_projectionLabels : projectionLabels.Advances := by
  simp only [projectionLabels, advances_bind, advances_whitespace, advances_accept, advances_ite,
    advances_expect, advances_pure, advances_iterate, implies_true, and_true, true_and]
  refine fun _ _ => ⟨fun _ _ labels => ⟨by simp [peek], ?_⟩, fun _ labels => ⟨by simp [peek], ?_⟩⟩
  all_goals exact .behind fun _ => .ite (goesOn_inr _) (takes_call .label).bind.goesOn

theorem takes_selector : selector.Takes := by
  have hrules : ∀ rule ≠ .letBinding, (call rule).Ends (fun _ => false) Rule.read := by
    intro rule h s a t ha
    rw [soften_none] at ha
    exact Rule.read_solid h ha
  exact (ends_selector readers_leave hrules).takes

theorem advances_selectorExpression : selectorExpression.Advances := by
  have hselector : selector.Advances := by simp [selector, advances_projectionLabels]
  simp [selectorExpression, advances_foldMany takes_selector, hselector]

/-- Each further entry stands behind a mark. -/
theorem advances_furtherEntries {mark : String} (hm : mark.toList ≠ []) (closing : Char)
    {entry : Grammar α} (h : entry.Advances) : (furtherEntries mark closing entry).Advances := by
  simp only [furtherEntries, advances_bind, advances_iterate, advances_pure, implies_true, and_true]
  refine fun entries => ⟨by simp [peek, h], .behind fun _ => .accept hm (goesOn_inr _)⟩

end Grammar

open Grammar

/-- In the body of every rule each loop that goes round takes a character. -/
theorem body_advances (rule : Rule) : rule.body.Advances := by
  cases rule with
  | doubleLiteral => exact advances_doubleLiteral
  | naturalLiteral | integerLiteral => simp [Rule.body, naturalLiteral, integerLiteral, digits]
  | label | nonreservedLabel => exact advances_labelExcept _ _
  | identifier => exact advances_identifier
  | textLiteral => simp [Rule.body, textLiteral]
  | doubleQuoteLiteral =>
    simp [Rule.body, doubleQuoteLiteral, advances_iterate, advances_doubleQuoteStep,
      goesOn_doubleQuoteStep]
  | singleQuoteLiteral =>
    simp [Rule.body, singleQuoteLiteral, advances_iterate, advances_singleQuoteStep,
      goesOn_singleQuoteStep]
  | importClause | importHashed | importType =>
    simp [Rule.body, importClause, importMode, importHashed, integrityHash, importType]
  | localImport =>
    simp [Rule.body, localImport, anchor, advances_pathComponent, advances_many takes_pathComponent]
  | httpImport => exact advances_httpImport
  | envImport => exact advances_envImport
  | expression | lambdaExpression | ifExpression | forallExpression | arrowExpression =>
    simp [Rule.body, expression, lambdaExpression, binder, arrow, ifExpression,
      forallExpression, arrowExpression]
  | letExpression =>
    simp [Rule.body, letExpression, advances_many (takes_call .letBinding)]
  | letBinding => simp [Rule.body, letBinding, bindingType]
  | mergeExpression | emptyListExpression | toMapExpression =>
    simp [Rule.body, mergeExpression, emptyListExpression, toMapExpression, colon]
  | annotatedExpression => exact advances_annotatedExpression
  | operatorExpression => exact advances_operatorExpression
  | applicationExpression => exact advances_applicationExpression
  | firstApplicationExpression =>
    simp [Rule.body, firstApplicationExpression, mergeApplication, someApplication,
      toMapApplication]
  | importExpression | primitiveExpression =>
    simp [Rule.body, importExpression, parenthesized, primitiveExpression]
  | selectorExpression => exact advances_selectorExpression
  | recordExpression | unionType | listLiteral =>
    simp [Rule.body, recordExpression, recordEntries, recordEntry, Grammar.unionType,
      unionAlternatives, unionAlternative, listLiteral, advances_furtherEntries, colon, peek]

end DhallSyntax
