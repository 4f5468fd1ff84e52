import DhallSyntax.Proofs.Parser.Defects
import DhallSyntax.Proofs.Parser.Misses
import DhallSyntax.Proofs.Text.Location

/-!
What parse errors say. Main statements:

* `run_halts`: a run that ends the parse does so for something that happens in it;
* `start_reports`: the text shows a defect at the place that is reported;
* `errors_truthful`: so every parse error says where and why.
-/

namespace DhallSyntax

open Grammar
open Whitespace (chunk extent)

variable {α β σ : Type} {settings : Settings} {source : List Char} {n : Nat}

/-! ## What ends a run -/

/-- The parse is given up for something that happens, or because there is too little stack. -/
def Abort.Of (happens : Event → Prop) (a : Abort) : Prop :=
  a.fault = .stackExhausted ∨
    ∃ u back, happens (.halt u a.fault back) ∧ a.offset = u.cursor.offset - back

theorem Abort.Of.mono {happens happens' : Event → Prop} {a : Abort} (h : a.Of happens)
    (hmono : ∀ e, happens e → happens' e) : a.Of happens' := by
  obtain h | ⟨u, back, hu, ho⟩ := h
  · exact .inl h
  · exact .inr ⟨u, back, hmono _ hu, ho⟩

section Runs

variable {s t : State} {a : Abort}

theorem iterate_halts {state : σ} {step : σ → Grammar (σ ⊕ α)} (bound : List Char)
    (hstep : ∀ state s a t,
      (step state).run settings (callWithin Rule.body settings n) s = .abort a t →
        a.Of ((step state).Happens settings n s))
    (h : iterateWithin
      (fun state t => (step state).run settings (callWithin Rule.body settings n) t)
        bound state s = .abort a t) :
    a.Of ((Grammar.iterate state step).Happens settings n s) := by
  induction bound generalizing state s with
  | nil =>
    rw [iterateWithin_step] at h
    cases hr : (step state).run settings (callWithin Rule.body settings n) s with
    | value x u =>
      rw [hr] at h
      cases x with
      | inl next =>
        cases h
        exact .inl rfl
      | inr a => cases h
    | mismatch u => rw [hr] at h; cases h
    | abort a' u =>
      rw [hr] at h
      cases h
      exact (hstep _ _ _ _ hr).mono fun e he => happens_iterate.mpr (.inl he)
  | cons _ bound ih =>
    rw [iterateWithin_step] at h
    cases hr : (step state).run settings (callWithin Rule.body settings n) s with
    | value x u =>
      rw [hr] at h
      cases x with
      | inl next =>
        exact (ih h).mono fun e he => happens_iterate.mpr (.inr ⟨_, _, hr, .inr he⟩)
      | inr a => cases h
    | mismatch u => rw [hr] at h; cases h
    | abort a' u =>
      rw [hr] at h
      cases h
      exact (hstep _ _ _ _ hr).mono fun e he => happens_iterate.mpr (.inl he)

/-- A run that ends the parse does so for something that happens in it, if this is so for the rules
that it calls. -/
theorem run_halts_of {g : Grammar α}
    (hcalls : ∀ (rule : Rule) s a t, callWithin Rule.body settings n rule s = .abort a t →
      a.Of ((Grammar.call rule).Happens settings n s))
    (h : g.run settings (callWithin Rule.body settings n) s = .abort a t) :
    a.Of (g.Happens settings n s) := by
  induction g generalizing s a t with
  | bind first next ihf ihn =>
    rw [run_bind] at h
    cases hr : first.run settings (callWithin Rule.body settings n) s with
    | value b u =>
      rw [hr] at h
      exact (ihn b h).mono fun e he => happens_bind.mpr (.inr ⟨b, u, hr, he⟩)
    | mismatch u => rw [hr] at h; cases h
    | abort a' u =>
      rw [hr] at h
      cases h
      exact (ihf hr).mono fun e he => happens_bind.mpr (.inl he)
  | orElse first second ihf ihs =>
    rw [Grammar.run] at h
    cases hr : first.run settings (callWithin Rule.body settings n) s with
    | value b u => rw [hr] at h; cases h
    | mismatch u =>
      rw [hr] at h
      exact (ihs h).mono fun e he => happens_orElse.mpr (.inr ⟨u, hr, he⟩)
    | abort a' u =>
      rw [hr] at h
      cases h
      exact (ihf hr).mono fun e he => happens_orElse.mpr (.inl he)
  | call rule => exact hcalls rule s a t h
  | nested body ih =>
    rw [Grammar.run, nestedWithin] at h
    split at h
    · rename_i hadmits
      cases hr : body.run settings (callWithin Rule.body settings n)
        (s.withDepth (s.depth + 1)) with
      | value b u => rw [hr] at h; cases h
      | mismatch u => rw [hr] at h; cases h
      | abort a' u =>
        rw [hr] at h
        cases h
        exact (ih hr).mono fun e he => happens_nested.mpr (.inl ⟨hadmits, he⟩)
    · rename_i hrefused
      cases h
      exact .inr ⟨_, _, happens_nested.mpr (.inr ⟨Bool.eq_false_iff.mpr hrefused, rfl⟩), rfl⟩
  | iterate state step ih =>
    exact iterate_halts _ (fun state s a t h => ih state h) h
  | abort fault back =>
    cases h
    exact .inr ⟨s, back, happens_abort.mpr rfl, rfl⟩
  | accept literal =>
    rw [Grammar.run] at h
    split at h <;> cases h
  | _ => cases h

theorem callWithin_halts (rule : Rule) (h : callWithin Rule.body settings n rule s = .abort a t) :
    a.Of ((Grammar.call rule).Happens settings n s) := by
  induction n generalizing rule s a t with
  | zero =>
    cases h
    exact .inl rfl
  | succ n ih =>
    rw [callWithin] at h
    cases hr : settings.recalls rule s with
    | true =>
      exact ((recallRule_recalled _ hr).1 (by rw [h]; trivial)).elim
    | false =>
      rw [recallRule_fresh hr, runRule] at h
      cases hb : rule.body.run settings (callWithin Rule.body settings n) (s.enter rule) with
      | value b u => rw [hb] at h; cases h
      | mismatch u => rw [hb] at h; cases h
      | abort a' u =>
        rw [hb] at h
        cases h
        exact (run_halts_of (fun rule s a t => ih rule) hb).mono fun e he =>
          happens_call.mpr (.inr ⟨hr, he⟩)

/-- A run that ends the parse does so for something that happens in it. -/
theorem run_halts {g : Grammar α}
    (h : g.run settings (callWithin Rule.body settings n) s = .abort a t) :
    a.Of (g.Happens settings n s) :=
  run_halts_of (fun rule _ _ _ => callWithin_halts rule) h

/-- Where the parse is given up because of a defect, the text shows it. -/
theorem happens_shown {g : Grammar α} (hg : g.Honest) (hs : s.In source) {u : State} {d : Defect}
    {back : Nat} (h : g.Happens settings n s (.halt u (.defect d) back)) :
    d.ShownAt source (g.Happens settings n s) (u.cursor.offset - back) := by
  obtain ⟨opened, h⟩ := h
  generalize he : Event.halt u (.defect d) back = e at h
  induction h with
  | here hp =>
    subst he
    exact (hg.shows _ _ _ _ _ _ _ hs hp).mono fun _ hp => ⟨[], .here hp⟩
  | @inside _ _ _ _ _ rule _ _ hp hr _ ih =>
    refine (ih (body_honest rule) ((hp.place hs).1.enter rule) he).mono fun _ hlook => ?_
    obtain ⟨opened, hlook⟩ := hlook
    exact ⟨_, .inside hp hr hlook⟩

/-- A parse that ends because of a defect reports it where the text shows it. -/
theorem start_reports {g : Grammar α} (hg : g.Honest) {d : Defect} (hd : a.fault = .defect d)
    (h : g.start settings (.initial source) = .abort a t) :
    a.offset ≤ source.length ∧
      d.ShownAt source (g.Happens settings settings.stack (.initial source)) a.offset := by
  have hs := State.In.initial source
  obtain hx | ⟨u, back, hu, ho⟩ := run_halts h
  · rw [hd] at hx
    cases hx
  · rw [hd] at hu
    have hplace : u.In source := by
      obtain ⟨_, hduring⟩ := hu
      exact (hduring.place hs).1
    have hle := hplace.offset_le
    exact ⟨by omega, ho ▸ happens_shown hg hs hu⟩

end Runs

/-! ## What errors say -/

/-- An error of running a part of the grammar from the beginning of a source says where and why. -/
structure SyntaxError.Truthful (settings : Settings) (source : List Char) (g : Grammar Expr)
    (e : SyntaxError) : Prop where
  location : e.location.In source
  /-- No alternative matched: the place is the furthest where one gave up. -/
  mismatch : e.kind = .mismatch → e.message ≠ Defect.openComment.message →
    (∃ s x, g.Misses settings settings.stack (.initial source) s x ∧
      s.cursor.offset = e.location.offset) ∧
    (∀ s x, g.Misses settings settings.stack (.initial source) s x →
      s.cursor.offset ≤ e.location.offset) ∧
    e.expected ≠ [] ∧ e.expected.Nodup
  /-- Something is behind an expression and the whitespace that follows it. -/
  trailing : e.kind = .trailing → ∃ p length,
    (parsePrefixWith settings source).result = .ok p ∧
      extent (source.drop p.consumed) = ⟨length, false⟩ ∧
      p.consumed + length < source.length ∧ p.consumed + length ≤ e.location.offset
  escape : e.kind = .escape → ['\\', 'u'] <+: source.drop e.location.offset
  integrity : e.kind = .integrity → "sha256:".toList <+: source.drop e.location.offset
  /-- A comment that is never closed stands behind whole chunks of whitespace, from a place where the
  text was looked at, and not inside of another comment. -/
  comment : e.kind = .mismatch → e.message = Defect.openComment.message →
    ['{', '-'] <+: source.drop e.location.offset ∧
      chunk (source.drop e.location.offset) = .unclosed ∧
      ∃ s, g.Happens settings settings.stack (.initial source) (.look s) ∧
        s.cursor.offset ≤ e.location.offset ∧
        extent (source.drop s.cursor.offset) = ⟨e.location.offset - s.cursor.offset, true⟩

/-- A report of the furthest failure is no report of a comment. -/
theorem unexpected_ne_openComment (a b c : String) :
    "unexpected " ++ a ++ b ++ c ≠ Defect.openComment.message := by
  intro h
  have hbegins : "unexpected ".toList <+: Defect.openComment.message.toList := by
    rw [← h]
    simp only [String.toList_append, List.append_assoc, List.prefix_append]
  exact absurd hbegins (by decide)

theorem furthest_le {g : Grammar α} {f : Furthest} (hg : g.Advances)
    (h : (g.start settings (.initial source)).state.furthest = some f) :
    f.offset ≤ source.length := by
  obtain ⟨-, hne, -, hmem⟩ := furthest_of_start hg h
  obtain ⟨x, hx⟩ := List.exists_mem_of_ne_nil _ hne
  obtain ⟨u, ⟨_, hduring⟩, hoffset⟩ := (hmem x).mp hx
  exact hoffset ▸ (hduring.place (State.In.initial source)).1.offset_le

/-- What no alternative of a part of the grammar matches is reported where the furthest of them gave
up. -/
theorem mismatch_truthful {g : Grammar Expr} (hg : g.Advances) (hnotes : g.Notes) {t : State}
    {e : SyntaxError} (h : g.start settings (.initial source) = .mismatch t)
    (he : ParseError.ofFurthest source t.furthest = .source e) :
    e.Truthful settings source g ∧ e.kind ≠ .trailing := by
  have hreport := hnotes.report_ne_none (State.In.initial source) h
  cases hf : t.furthest with
  | none => exact absurd (congrArg (Option.map _) hf) hreport
  | some f =>
    rw [hf] at he
    cases he
    have hfurthest : (g.start settings (.initial source)).state.furthest = some f := by
      rw [h]
      exact hf
    obtain ⟨hle, hne, hnodup, hmem⟩ := furthest_of_start hg hfurthest
    refine ⟨⟨Location.of_in (furthest_le hg hfurthest), fun _ _ => ⟨?_, hle, hne, hnodup⟩,
      by rintro ⟨⟩, by rintro ⟨⟩, by rintro ⟨⟩, fun _ hm => ?_⟩, by rintro ⟨⟩⟩
    · obtain ⟨x, hx⟩ := List.exists_mem_of_ne_nil _ hne
      obtain ⟨u, hu, hoffset⟩ := (hmem x).mp hx
      exact ⟨u, x, hu, hoffset⟩
    · exact absurd hm (unexpected_ne_openComment _ _ _)

theorem abort_truthful {g : Grammar Expr} (hg : g.Honest) {a : Abort} {t : State}
    {e : SyntaxError} (h : g.start settings (.initial source) = .abort a t)
    (he : ParseError.ofAbort source a = .source e) :
    e.Truthful settings source g ∧ e.kind ≠ .trailing := by
  unfold ParseError.ofAbort at he
  split at he
  · cases he
  · cases he
  · rename_i d hd
    cases he
    obtain ⟨hle, hshown⟩ := start_reports hg hd h
    have hnever : d.kind ≠ .trailing := by cases d <;> exact ErrorKind.noConfusion
    have hcomment : d.kind = .mismatch → d.message = Defect.openComment.message := by
      cases d <;> first
        | exact fun hk => ErrorKind.noConfusion hk
        | exact fun _ => rfl
    unfold Defect.ShownAt at hshown
    refine ⟨⟨Location.of_in hle, fun hk hm => absurd (hcomment hk) hm, fun hk => absurd hk hnever,
      fun hk => ?_, fun hk => ?_, fun hk _ => ?_⟩, hnever⟩
    · simp only [show d.kind = .escape from hk] at hshown
      obtain ⟨rest, hrest, -⟩ := hshown
      exact ⟨rest, hrest.symm⟩
    · simp only [show d.kind = .integrity from hk] at hshown
      exact hshown
    · simp only [show d.kind = .mismatch from hk] at hshown
      obtain ⟨s, hlook, hle, hextent⟩ := hshown
      have hchunk : chunk (source.drop a.offset) = .unclosed := by
        have hchunk := Whitespace.chunk_of_extent hextent
        rwa [List.drop_drop, Nat.add_sub_cancel' hle] at hchunk
      exact ⟨Whitespace.unclosed_begins hchunk, hchunk, s, hlook, hle, hextent⟩

/-- The error of a run from the beginning, if it has one. -/
theorem runFrom_truthful {g : Grammar Expr} (hadvances : g.Advances) (hhonest : g.Honest)
    (hnotes : g.Notes) {e : SyntaxError}
    (h : (runFrom settings source g).result = .error (.source e)) :
    e.Truthful settings source g ∧ e.kind ≠ .trailing := by
  unfold runFrom at h
  cases hr : g.start settings (.initial source) with
  | value a t => rw [hr] at h; cases h
  | mismatch t =>
    rw [hr] at h
    exact mismatch_truthful hadvances hnotes hr (Except.error.inj h)
  | abort a t =>
    rw [hr] at h
    exact abort_truthful hhonest hr (Except.error.inj h)

theorem honest_leadingExpression : leadingExpression.Honest := by
  simp [leadingExpression]

theorem runFrom_of_parsePrefix {source : String} {error : ParseError}
    (h : parsePrefix settings source = .error error) :
    (runFrom settings source.toList leadingExpression).result = .error error := by
  unfold parsePrefix parsePrefixWith at h
  dsimp only at h
  cases hr : (runFrom settings source.toList leadingExpression).result with
  | ok e => rw [hr] at h; cases h
  | error error' => rw [hr] at h; exact congrArg Except.error (Except.error.inj h)

/-- An error of a whole source: there is no expression, or something is behind it. -/
theorem runFrom_of_parse {source : String} {error : ParseError}
    (h : parse settings source = .error error) :
    (runFrom settings source.toList completeExpression).result = .error error ∨
      ∃ value t, completeExpression.start settings (.initial source.toList) = .value value t ∧
        error = .ofTrailing source.toList t.cursor.offset t.furthest := by
  unfold parse parseWith runFrom at h
  unfold runFrom
  cases hr : completeExpression.start settings (.initial source.toList) with
  | value value t =>
    rw [hr] at h
    dsimp only at h
    split at h
    · cases h
    · exact .inr ⟨value, t, rfl, (Except.error.inj h).symm⟩
  | mismatch t => rw [hr] at h; exact .inl h
  | abort a t => rw [hr] at h; exact .inl h

/-- An error about what is behind an expression. -/
theorem trailing_behind {source : String} {e : SyntaxError}
    (h : parse settings source = .error (.source e)) (hkind : e.kind = .trailing) :
    ∃ p length, (parsePrefixWith settings source.toList).result = .ok p ∧
      extent (source.toList.drop p.consumed) = ⟨length, false⟩ ∧
      p.consumed + length < source.toList.length ∧ p.consumed + length ≤ e.location.offset := by
  obtain ⟨herror, hok⟩ := parse_of_parsePrefix settings source
  cases hp : parsePrefix settings source with
  | error error =>
    obtain rfl : error = .source e := Except.error.inj ((herror error hp).symm.trans h)
    have hr := runFrom_of_parsePrefix hp
    exact absurd hkind (runFrom_truthful advances_leadingExpression honest_leadingExpression
      notes_leadingExpression hr).2
  | ok p =>
    obtain ⟨-, hle, hend, htrailing, hopen⟩ := hok p hp
    refine ⟨p, (extent (source.toList.drop p.consumed)).length, hp, ?_⟩
    cases hu : (extent (source.toList.drop p.consumed)).unclosed with
    | true =>
      cases h.symm.trans (hopen hu)
      cases hkind
    | false =>
      rcases Nat.lt_or_eq_of_le hle with hlt | heq
      · obtain ⟨e', he', -, hoffset⟩ := htrailing hu hlt
        obtain rfl : e = e' := ParseError.source.inj (Except.error.inj (h.symm.trans he'))
        exact ⟨by rw [← hu], hlt, hoffset⟩
      · cases h.symm.trans (hend hu heq)

/-- What is behind an expression is reported at its own place or at that of the furthest failure. -/
theorem ofTrailing_location {offset : Nat} {furthest : Option Furthest} {e : SyntaxError}
    (h : ParseError.ofTrailing source offset furthest = .source e) :
    e.location = .of source offset ∨ ∃ f, furthest = some f ∧ e.location = .of source f.offset := by
  cases h
  cases furthest with
  | none => exact .inl rfl
  | some f =>
    dsimp only
    split
    · exact .inl rfl
    · split
      · exact .inl rfl
      · exact .inr ⟨f, rfl, rfl⟩

/-- Parse errors are truthful, those of whole sources and those of expressions at the beginning. -/
theorem errors_truthful (settings : Settings) (source : String) (e : SyntaxError) :
    (parse settings source = .error (.source e) →
      e.Truthful settings source.toList completeExpression) ∧
    (parsePrefix settings source = .error (.source e) →
      e.Truthful settings source.toList leadingExpression) := by
  refine ⟨fun h => ?_, fun h => ?_⟩
  · obtain hr | ⟨value, t, hr, he⟩ := runFrom_of_parse h
    · exact (runFrom_truthful advances_completeExpression honest_completeExpression
        notes_completeExpression hr).1
    · obtain ⟨e', he', hkind, -⟩ := ofTrailing_eq source.toList t.cursor.offset t.furthest
      obtain rfl : e = e' := ParseError.source.inj (he.trans he')
      refine ⟨?_, ?_, fun _ => trailing_behind h hkind, ?_, ?_, ?_⟩
      · obtain hl | ⟨f, hf, hl⟩ := ofTrailing_location he.symm
        · rw [hl]
          exact Location.of_in (run_value (State.In.initial _) hr).2.offset_le
        · rw [hl]
          have hfurthest :
              (completeExpression.start settings (.initial source.toList)).state.furthest =
                some f := by
            rw [hr]
            exact hf
          exact Location.of_in (furthest_le advances_completeExpression hfurthest)
      all_goals exact fun hk => ErrorKind.noConfusion (hkind.symm.trans hk)
  · exact (runFrom_truthful advances_leadingExpression honest_leadingExpression
      notes_leadingExpression (runFrom_of_parsePrefix h)).1

/-- An escape with too few digits, and a comment in a comment in the second line. -/
theorem errors_truthful_defects :
    (∃ e, parse ⟨some 4, true, 200⟩ "\"\\u12\"" = .error (.source e) ∧ e.kind = .escape ∧
      ['\\', 'u'] <+: "\"\\u12\"".toList.drop e.location.offset) ∧
    ∃ e, parsePrefix ⟨some 4, true, 200⟩ "\n \x7b- \x7b-" = .error (.source e) ∧
      e.location.In "\n \x7b- \x7b-".toList ∧
      ['{', '-'] <+: "\n \x7b- \x7b-".toList.drop e.location.offset := by
  have hescape : parse ⟨some 4, true, 200⟩ "\"\\u12\"" =
      .error (.ofAbort "\"\\u12\"".toList ⟨.defect .shortEscape, 1, [.expression,
        .arrowExpression, .operatorExpression, .applicationExpression,
        .firstApplicationExpression, .importExpression, .selectorExpression,
        .primitiveExpression, .textLiteral, .doubleQuoteLiteral]⟩) :=
    eq_error_of_elim (by decide +kernel)
  have hcomment : parsePrefix ⟨some 4, true, 200⟩ "\n \x7b- \x7b-" =
      .error (.ofAbort "\n \x7b- \x7b-".toList ⟨.defect .openComment, 2, []⟩) :=
    eq_error_of_elim (by decide +kernel)
  refine ⟨⟨_, hescape, rfl, ?_⟩, ⟨_, hcomment, ?_, ?_⟩⟩
  · exact ((errors_truthful _ _ _).1 hescape).escape rfl
  · exact ((errors_truthful _ _ _).2 hcomment).location
  · exact (((errors_truthful _ _ _).2 hcomment).comment rfl rfl).1

end DhallSyntax
