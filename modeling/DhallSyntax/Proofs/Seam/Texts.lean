import DhallSyntax.Proofs.Seam.Numbers

/-!
Text literals in front of a seam. A literal goes up to its closing quote, so that every character of
it, and all the text of the expressions in it, is in front of the seam. Main statements:

* `Seam.carries_completeExpression`: an expression with whitespace around it carries over in front
  of a token that ends it;
* `Seam.carries_doubleQuoteLiteral`, `Seam.carries_singleQuoteLiteral`: text literals carry over.
-/

namespace DhallSyntax

open CharClass Grammar

variable {α β : Type}

theorem CharClass.hexDigit_unbroken : hexDigit.Unbroken := ⟨by decide, by decide⟩

namespace Seam

variable {T : Seam} {n : Nat} {x y z : List Char}

/-! ## Expressions with something behind them -/

/-- Behind whitespace comes what ends an expression. -/
theorem leads_ends {next : Unit → Grammar α} {E : α → List Char → Prop}
    (h : T.Leads n E T.StopsExpression (next ())) :
    T.Leads n E T.EndsExpression (whitespace >>= next) := by
  intro x a y hl he
  obtain ⟨_, u, hw, hn⟩ := hl.bind
  exact (h u a y hn he).ends hw

theorem leads_stops_expect {literal : String}
    (hl : literal.toList.head?.any [')', ']', '}', '>', ','].contains = true)
    {E : Unit → List Char → Prop} : T.Leads n E T.StopsExpression (expect literal) := by
  refine leads_expect fun y _ => ?_
  obtain ⟨c, t, ht, hc⟩ := head?_of_any hl
  rw [ht]
  exact stopsExpression_head (List.contains_iff_mem.mp hc)

section Expression

variable (hexpr : T.Carries n (fun _ => T.EndsExpression) (call .expression))

include hexpr

theorem carries_completeExpression :
    T.Carries n (fun _ => T.StopsExpression) completeExpression := by
  refine Carries.spaced (.front (leads_token_call .expression (by decide))) ?_
  refine Carries.bind hexpr (fun value => leads_ends (.pure fun _ h => h)) fun value => ?_
  exact Carries.spaced (.pure fun _ h => h.token) (.pure _)

theorem carries_interpolation (draft : TextDraft) {E : TextDraft → List Char → Prop} :
    T.Carries n E (interpolation draft) :=
  Carries.bind (carries_completeExpression hexpr)
    (fun _ => .front (leads_stops_expect (by decide)))
    fun _ => .andThen (carries_expect (by decide)) fun _ => .pure _

end Expression

/-! ## Escapes -/

theorem carries_scalar (code length : Nat) {E : Char → List Char → Prop} :
    T.Carries n E (scalar code length) :=
  .ite (fun _ => .abort _ _) fun _ => .pure _

theorem carries_unicodeEscape {E : Char → List Char → Prop} : T.Carries n E unicodeEscape := by
  apply Carries.andThen (carries_accept (by decide))
  intro brace
  apply Carries.ite
  · intro _
    apply Carries.andThen (carries_takeWhile (.inl hexDigit_unbroken))
    intro run
    refine .ite (fun _ => .abort _ _) fun _ => .andThen (carries_accept (by decide)) fun _ => ?_
    exact .ite (fun _ => .ite (fun _ => .abort _ _) fun _ => carries_scalar _ _)
      fun _ => .abort _ _
  · intro _ x a y h _
    obtain ⟨run, z, hrun, h⟩ := Lands.bind h
    obtain ⟨rfl, rfl⟩ := lands_look hrun
    split at h
    · rename_i hdigits
      obtain ⟨_, w, hadvance, h⟩ := Lands.bind h
      have hfour : ((T.was z).take 4).length = 4 := by
        obtain ⟨hlength, -⟩ := Bool.and_eq_true_iff.mp hdigits
        exact beq_iff_eq.mp hlength
      rw [List.length_take] at hfour
      obtain ⟨text, htext, rfl⟩ := lands_advance hadvance (by omega)
      have htake : ∀ p, (text ++ p).take 4 = text := fun p => htext ▸ List.take_left
      rw [was_append, htake] at hdigits h
      refine .bind (reads_look ((was_append _ _).symm ▸ htake _) ((now_append _ _).symm ▸ htake _)) ?_
      rw [if_pos hdigits]
      exact .bind (htext ▸ reads_advance text) (carries_scalar (E := fun _ _ => True) _ _ w a y h trivial)
    · cases h

theorem carries_escapeSequence {E : Char → List Char → Prop} :
    T.Carries n E escapeSequence := by
  intro x a y hl he
  obtain ⟨c, z, hc, h⟩ := Lands.bind hl
  obtain ⟨rfl, rfl⟩ := lands_look hc
  clear hl hc
  cases hhead : (T.was z).head? with
  | none =>
    rw [hhead] at h
    cases h
  | some c =>
    rw [hhead] at h
    have hreads : ∀ v, T.Reads (look List.head?) (c :: v) (some c) (c :: v) :=
      fun v => reads_look rfl rfl
    cases hm : EscapeTable.text.lookup c with
    | some meaning =>
      dsimp only at h
      rw [hm] at h
      obtain ⟨_, v, hv, hn⟩ := Lands.bind h
      obtain rfl := lands_advance_one hhead hv
      obtain ⟨rfl, rfl⟩ := Lands.pure hn
      apply Same.bind (hreads _)
      dsimp only
      rw [hm]
      exact .bind (reads_advance [c]) (.plain trivial (.refl _) rfl)
    | none =>
      dsimp only at h
      rw [hm] at h
      dsimp only at h
      split at h
      · rename_i hu
        obtain ⟨_, v, hv, hn⟩ := Lands.bind h
        obtain rfl := lands_advance_one hhead hv
        apply Same.bind (hreads _)
        dsimp only
        rw [hm]
        dsimp only
        rw [if_pos hu]
        exact .bind (reads_advance [c]) (carries_unicodeEscape _ a y hn he)
      · cases h

/-! ## Text literals -/

/-- The last way on from a step: a character that stands for itself. -/
theorem carries_takeIf_some {chars : CharClass} {next : Option Char → Grammar α}
    {E : α → List Char → Prop} (hnone : ∀ x a y, ¬ T.Lands n (next none) x a y)
    (hn : ∀ c, T.Carries n E (next (some c))) : T.Carries n E (takeIf chars >>= next) := by
  refine Carries.bind (F := fun r _ => r ≠ none) (carries_takeIf (.inr fun y h => h rfl))
    (fun r => ?_) fun r => ?_
  · rintro x a y h - rfl
    exact hnone x a y h
  · cases r with
    | none => exact fun x a y h => absurd h (hnone x a y)
    | some c => exact hn c

section Literals

variable (hexpr : T.Carries n (fun _ => T.EndsExpression) (call .expression))

include hexpr in
theorem carries_doubleQuoteStep (draft : TextDraft) {E : TextDraft ⊕ Expr → List Char → Prop} :
    T.Carries n E (doubleQuoteStep draft) := by
  refine .andThen (carries_accept (by decide)) fun _ => .ite (fun _ => .pure _) fun _ => ?_
  refine .andThen (carries_accept (by decide)) fun _ => .ite (fun _ => ?_) fun _ => ?_
  · exact .andThen (carries_interpolation hexpr draft) fun _ => .pure _
  refine .andThen (carries_accept (by decide)) fun _ => .ite (fun _ => ?_) fun _ => ?_
  · exact .andThen carries_escapeSequence fun _ => .pure _
  exact carries_takeIf_some (fun _ _ _ h => nomatch h) fun _ => .pure _

theorem doubleQuoteStep_shrinks (draft : TextDraft) :
    T.Shrinks n (fun r => r.isLeft = true) (doubleQuoteStep draft) := by
  refine Shrinks.accept (by decide) (Shrinks.accept (by decide) (Shrinks.accept (by decide) ?_))
  exact .takeIf (.fail _)

include hexpr in
theorem carries_doubleQuoteLiteral {E : Expr → List Char → Prop} :
    T.Carries n E doubleQuoteLiteral := by
  refine .andThen (carries_expect (by decide)) fun _ => ?_
  exact Carries.iterate (fun _ _ => True) (fun draft => carries_doubleQuoteStep hexpr draft)
    (fun _ => .any _) fun draft x next z h => doubleQuoteStep_shrinks draft x (.inl next) z h rfl

/-- A line ending of two characters is taken, unless a token is next. -/
theorem carries_accept_token {literal : String} (hl : literal.toList.head? = some '\r')
    {E : Bool → List Char → Prop} (hE : ∀ y, E false y → Token y) :
    T.Carries n E (accept literal) := by
  intro x b y h he
  refine reads_plain (by simp) h ?_
  obtain ⟨rfl, rfl⟩ | ⟨rfl, rfl, -⟩ := lands_accept h
  · rw [readBy_accept, now_append, isPrefixOf_append, if_pos rfl, List.drop_left]
  · obtain ⟨c, t, rfl, hc⟩ := hE y he
    have hhead : literal.toList.head?.any (· == '\r') = true := by rw [hl]; rfl
    exact readBy_accept_of_head literal hhead (beq_false_of_ne hc)

include hexpr in
theorem carries_singleQuoteStep (draft : TextDraft) {E : TextDraft ⊕ Expr → List Char → Prop} :
    T.Carries n E (singleQuoteStep draft) := by
  refine .andThen (carries_accept (by decide)) fun _ => .ite (fun _ => ?_) fun _ => ?_
  · exact .andThen (carries_interpolation hexpr draft) fun _ => .pure _
  refine .andThen (carries_accept (by decide)) fun _ => .ite (fun _ => .pure _) fun _ => ?_
  refine .andThen (carries_accept (by decide)) fun _ => .ite (fun _ => .pure _) fun _ => ?_
  refine .andThen (carries_accept (by decide)) fun _ => .ite (fun _ => .pure _) fun _ => ?_
  refine Carries.bind (F := fun b y => b = false → Token y)
    (carries_accept_token (by decide) fun y h => h rfl) (fun b => ?_) fun b => ?_
  · rintro x a y h - rfl
    obtain ⟨r, z, hr, h⟩ := Lands.bind h
    obtain ⟨c, rfl, rfl, hc⟩ | ⟨rfl, -, -⟩ := lands_takeIf hr
    · refine ⟨c, z, rfl, ?_⟩
      rintro rfl
      cases hc
    · cases h
  · exact .ite (fun _ => .pure _) fun _ =>
      carries_takeIf_some (fun _ _ _ h => nomatch h) fun _ => .pure _

theorem singleQuoteStep_shrinks (draft : TextDraft) :
    T.Shrinks n (fun r => r.isLeft = true) (singleQuoteStep draft) := by
  refine Shrinks.accept (by decide) (Shrinks.accept (by decide) (Shrinks.accept (by decide) ?_))
  exact Shrinks.accept (by decide) (Shrinks.accept (by decide) (.takeIf (.fail _)))

/-- The line ending behind the opening quotes is in front of the seam. -/
theorem carries_lineEnding {E : String → List Char → Prop} :
    T.Carries n E (expectAny ["\n", "\r\n"]) := by
  intro x literal y h _
  refine reads_plain (by simp) h ?_
  obtain ⟨hm, rfl⟩ := lands_expectAny h
  simp only [List.mem_cons, List.not_mem_nil, or_false] at hm
  obtain rfl | rfl := hm <;> rfl

include hexpr in
theorem carries_singleQuoteLiteral {E : Expr → List Char → Prop} :
    T.Carries n E singleQuoteLiteral := by
  refine .andThen (carries_expect (by decide)) fun _ => .andThen carries_lineEnding fun _ => ?_
  exact Carries.iterate (fun _ _ => True) (fun draft => carries_singleQuoteStep hexpr draft)
    (fun _ => .any _) fun draft x next z h => singleQuoteStep_shrinks draft x (.inl next) z h rfl

end Literals

end Seam

end DhallSyntax
