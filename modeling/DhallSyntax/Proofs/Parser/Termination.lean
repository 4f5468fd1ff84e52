import DhallSyntax.Proofs.Parser.Events
import DhallSyntax.Proofs.Reading.Progress

/-!
Parsing ends by itself. Rules call each other further on in the source, or at the same place if the
one called is of a lower rank, and loops that go round take a character each time. Main statements:

* `Grammar.During.descends`: the rules that are open are all different or were called at different
  places;
* `callWithin_ends`: some levels for each character of the source are enough for any rule;
* `parse_terminates`: so they are for a parse, whether or not there is a bound on nested
  expressions.
-/

namespace DhallSyntax

variable {α β σ : Type} {settings : Settings} {source : List Char} {n : Nat}

/-! ## Ranks -/

namespace Rule

/-- The rank of a rule. Before it takes a character, a rule calls rules of lower ranks only. -/
def rank : Rule → Nat
  | .expression => 9
  | .arrowExpression | .annotatedExpression => 8
  | .operatorExpression => 7
  | .applicationExpression => 6
  | .firstApplicationExpression => 5
  | .importExpression => 4
  | .selectorExpression | .importClause => 3
  | .primitiveExpression | .importHashed => 2
  | .identifier | .textLiteral | .importType | .letExpression => 1
  | _ => 0

/-- How many ranks there are. -/
def ranks : Nat := 10

theorem rank_lt (rule : Rule) : rule.rank < ranks := by
  cases rule <;> decide

end Rule

/-! ## Calls before a character is taken -/

namespace Grammar

variable {P : Rule → Prop}

/-- What is called is among the rules that a part of a grammar may call. -/
theorem Passes.permitted {caller : Caller} {g : Grammar α} {s t : State} {rule : Rule}
    (h : g.Passes settings caller s (.call rule t))
    (hg : g.DoesOnly fun deed => ∀ rule, deed = .call rule → P rule) : P rule := by
  generalize he : Event.call rule t = e at h
  induction h with
  | first _ ih => exact ih hg.1 he
  | next _ _ ih => exact ih (hg.2 _) he
  | left _ ih => exact ih hg.1 he
  | right _ _ ih => exact ih hg.2 he
  | call =>
    cases he
    exact hg _ rfl
  | nested _ _ ih => exact ih hg.2 he
  | step _ ih => exact ih (hg _) he
  | again _ _ ih => exact ih hg he
  | look | refused | round | miss | halt => cases he

/-- A loop that goes round has taken a character. -/
theorem Passes.advances {g : Grammar α} {s t u : State}
    (h : g.Passes settings (callWithin Rule.body settings n) s (.round t u)) (hs : s.In source)
    (hg : g.Advances) : t.cursor.offset < u.cursor.offset := by
  generalize he : Event.round t u = e at h
  induction h with
  | first _ ih => exact ih hs hg.1 he
  | next hr _ ih => exact ih (run_onward hs hr).1 (hg.2 _) he
  | left _ ih => exact ih hs hg.1 he
  | right hr _ ih => exact ih (hs.moveTo (run_mismatch hs hr).2) hg.2 he
  | nested _ _ ih => exact ih (hs.withDepth _) hg he
  | step _ ih => exact ih hs (hg _).1 he
  | round hr =>
    cases he
    obtain ⟨hread, hu⟩ := run_value hs hr
    have hshort := (hg _).2 _ _ _ hread
    have hsource := hs.offset_add
    have htarget := hu.offset_add
    omega
  | again hr _ ih => exact ih (run_onward hs hr).1 hg he
  | look | call | refused | miss | halt => cases he

/-- At the place where a part of a grammar begins, it calls some rules only. -/
def Guarded (P : Rule → Prop) (g : Grammar α) : Prop :=
  ∀ (settings : Settings) (source : List Char) (n : Nat) (s t : State) (rule : Rule), s.In source →
    g.Passes settings (callWithin Rule.body settings n) s (.call rule t) →
    t.cursor.offset = s.cursor.offset → P rule

theorem guarded_of_doesOnly {g : Grammar α}
    (h : g.DoesOnly fun deed => ∀ rule, deed = .call rule → P rule) : g.Guarded P :=
  fun _ _ _ _ _ _ _ hp _ => hp.permitted h

theorem Guarded.bind {first : Grammar β} {next : β → Grammar α} (h : first.Guarded P)
    (hn : ∀ b, (next b).Guarded P) : (first >>= next).Guarded P := by
  intro settings source n s t rule hs hp ht
  cases hp with
  | first hp => exact h settings source n s t rule hs hp ht
  | next hr hp =>
    obtain ⟨hu, honward⟩ := run_onward hs hr
    have hlater := (hp.place hu).2.1
    exact hn _ settings source n _ t rule hu hp (by dsimp only [Event.state] at hlater; omega)

/-- Behind a part that takes something, anything may be called. -/
theorem Guarded.before {first : Grammar β} {next : β → Grammar α} (h : first.Guarded P)
    (ht : first.Takes) : (first >>= next).Guarded P := by
  intro settings source n s t rule hs hp he
  cases hp with
  | first hp => exact h settings source n s t rule hs hp he
  | next hr hp =>
    obtain ⟨hread, hu⟩ := run_value hs hr
    have hlater := (hp.place hu).2.1
    have hshort := ht _ _ _ hread
    have hsource := hs.offset_add
    have htarget := hu.offset_add
    dsimp only [Event.state] at hlater
    omega

theorem Guarded.orElse {first second : Grammar α} (h : first.Guarded P)
    (hs : second.Guarded P) : (orElse first second).Guarded P := by
  intro settings source n s t rule hin hp ht
  cases hp with
  | left hp => exact h settings source n s t rule hin hp ht
  | right hr hp => exact hs settings source n _ t rule (hin.moveTo (run_mismatch hin hr).2) hp ht

theorem Guarded.choice {alternatives : List (Grammar α)} (h : ∀ g ∈ alternatives, g.Guarded P) :
    (choice alternatives).Guarded P := by
  induction alternatives with
  | nil => exact guarded_of_doesOnly (by simp [Grammar.choice])
  | cons g rest ih =>
    obtain ⟨hg, hrest⟩ := List.forall_mem_cons.mp h
    exact hg.orElse (ih hrest)

theorem guarded_call {rule : Rule} (h : P rule) : (call rule).Guarded P :=
  guarded_of_doesOnly (by rintro _ ⟨⟩; exact h)

theorem guarded_callFree {g : Grammar α} (h : g.CallFree) : g.Guarded P :=
  guarded_of_doesOnly <| h.mono fun _ => by rintro ⟨fault, rfl⟩ _ ⟨⟩

theorem guarded_whitespace : whitespace.Guarded P :=
  guarded_callFree (doesOnly_whitespace ⟨_, rfl⟩)

theorem Guarded.ite {p : Prop} [Decidable p] {g g' : Grammar α} (h : g.Guarded P)
    (h' : g'.Guarded P) : (if p then g else g').Guarded P := by
  split
  · exact h
  · exact h'

theorem Guarded.expect {literal : String} {next : Unit → Grammar α} (h : SolidText literal) :
    (expect literal >>= next).Guarded P :=
  .before (guarded_callFree (by simp)) (takes_expect h)

theorem Guarded.keyword {word : String} {next : Unit → Grammar α} (h : SolidText word) :
    (keyword word >>= next).Guarded P :=
  .before (guarded_callFree (by simp)) (takes_keyword h)

/-- Behind a rule that is called, anything may be called. -/
theorem Guarded.call {rule : Rule} {next : rule.Result → Grammar α} (h : P rule) :
    (call rule >>= next).Guarded P :=
  .before (guarded_call h) (takes_call rule)

end Grammar

open Grammar

/-- Before it takes a character, a rule calls rules of lower ranks only. -/
theorem body_guarded (rule : Rule) : rule.body.Guarded fun called => called.rank < rule.rank := by
  cases rule with
  | doubleLiteral => exact guarded_callFree (doesOnly_doubleLiteral ⟨_, rfl⟩)
  | naturalLiteral | integerLiteral =>
    exact guarded_callFree (by simp [Rule.body, naturalLiteral, integerLiteral, digits])
  | label | nonreservedLabel => exact guarded_callFree (doesOnly_labelExcept _ _)
  | identifier =>
    refine .bind (guarded_of_doesOnly (by simp [Rule.rank])) fun name? => ?_
    cases name? with
    | some name => exact guarded_callFree (by simp [variableIndex, doesOnly_whitespace])
    | none => exact guarded_callFree doesOnly_builtin
  | textLiteral => exact guarded_of_doesOnly (by simp [Rule.body, textLiteral, Rule.rank])
  | doubleQuoteLiteral => exact .expect ⟨by decide, by decide⟩
  | singleQuoteLiteral => exact .expect ⟨by decide, by decide⟩
  | importClause => exact .call (by decide)
  | importHashed => exact .call (by decide)
  | importType => exact guarded_of_doesOnly (by simp [Rule.body, importType, Rule.rank])
  | localImport =>
    exact guarded_callFree (by simp [Rule.body, localImport, anchor, doesOnly_pathComponent])
  | httpImport =>
    exact .bind (guarded_callFree (by simp [scheme])) fun _ => .expect ⟨by decide, by decide⟩
  | envImport => exact .expect ⟨by decide, by decide⟩
  | expression => exact guarded_of_doesOnly (by simp [Rule.body, expression, Rule.rank])
  | lambdaExpression =>
    exact .before (guarded_callFree (by simp)) (takes_expectAny (by decide))
  | ifExpression => exact .keyword ⟨by decide, by decide⟩
  | letExpression => exact .call (by decide)
  | letBinding => exact .keyword ⟨by decide, by decide⟩
  | forallExpression =>
    have hbinder : binder.Guarded fun called => called.rank < Rule.rank .forallExpression :=
      .bind guarded_whitespace fun _ => .expect ⟨by decide, by decide⟩
    have htakes : binder.Takes := .behind fun _ => (takes_expect ⟨by decide, by decide⟩).bind
    exact .bind (guarded_callFree (by simp)) fun mark =>
      .ite (hbinder.before htakes) (.keyword ⟨by decide, by decide⟩)
  | arrowExpression => exact .call (by decide)
  | mergeExpression => exact .keyword ⟨by decide, by decide⟩
  | emptyListExpression => exact .expect ⟨by decide, by decide⟩
  | toMapExpression => exact .keyword ⟨by decide, by decide⟩
  | annotatedExpression => exact .call (by decide)
  | operatorExpression => exact .call (by decide)
  | applicationExpression => exact .call (by decide)
  | firstApplicationExpression =>
    refine .choice ?_
    simp only [List.forall_mem_cons]
    exact ⟨.keyword ⟨by decide, by decide⟩, .keyword ⟨by decide, by decide⟩,
      .keyword ⟨by decide, by decide⟩, guarded_call (by decide), List.forall_mem_nil _⟩
  | importExpression =>
    exact .choice (List.forall_mem_cons.mpr ⟨.call (by decide),
      List.forall_mem_singleton.mpr (guarded_call (by decide))⟩)
  | selectorExpression => exact .call (by decide)
  | primitiveExpression =>
    refine .choice ?_
    simp only [List.forall_mem_cons]
    exact ⟨.call (by decide), .call (by decide), .call (by decide), guarded_call (by decide),
      guarded_call (by decide), guarded_call (by decide), guarded_call (by decide),
      guarded_call (by decide), .expect ⟨by decide, by decide⟩, List.forall_mem_nil _⟩
  | recordExpression => exact .expect ⟨by decide, by decide⟩
  | unionType => exact .expect ⟨by decide, by decide⟩
  | listLiteral => exact .expect ⟨by decide, by decide⟩

/-! ## Open rules -/

/-- A call behind another one: further on in the source, or at the same place of a rule of a lower
rank. -/
def Deeper (inner outer : Rule × Nat) : Prop :=
  outer.2 < inner.2 ∨ inner.2 = outer.2 ∧ inner.1.rank < outer.1.rank

theorem Deeper.trans {a b c : Rule × Nat} (h : Deeper a b) (h' : Deeper b c) : Deeper a c := by
  unfold Deeper at *
  omega

theorem Deeper.ne {a b : Rule × Nat} (h : Deeper a b) : a ≠ b := by
  rintro rfl
  unfold Deeper at h
  omega

/-- What a rule calls is deeper than the rule. -/
theorem deeper_of_call {rule called : Rule} {s t : State} (hs : s.In source)
    (h : rule.body.Passes settings (callWithin Rule.body settings n) (s.enter rule)
      (.call called t)) :
    t.In source ∧ Deeper (called, t.cursor.offset) (rule, s.cursor.offset) := by
  obtain ⟨ht, honward, -⟩ := h.place (hs.enter rule)
  refine ⟨ht, ?_⟩
  obtain hlt | heq := Nat.lt_or_eq_of_le honward
  · exact .inl hlt
  · exact .inr ⟨heq.symm, body_guarded rule _ _ _ _ _ _ (hs.enter rule) h heq.symm⟩

/-- What happens in good order while some rules are open: each rule is called deeper than all that
are open, and each loop that goes round has taken a character. -/
def Event.Descends (opened : List (Rule × Nat)) : Event → Prop
  | call rule t => ∀ outer ∈ opened, Deeper (rule, t.cursor.offset) outer
  | round t u => t.cursor.offset < u.cursor.offset
  | _ => True

/-- What happens in the body of a rule is in good order if the call of the rule was. -/
theorem descends_body {rule : Rule} {s : State} {opened : List (Rule × Nat)} {e : Event}
    (hs : s.In source)
    (h : rule.body.Passes settings (callWithin Rule.body settings n) (s.enter rule) e)
    (hcall : (Event.call rule s).Descends opened) :
    e.Descends ((rule, s.cursor.offset) :: opened) := by
  cases e with
  | call called t =>
    have hdeeper := (deeper_of_call hs h).2
    exact List.forall_mem_cons.mpr ⟨hdeeper, fun outer ho => hdeeper.trans (hcall outer ho)⟩
  | round t u => exact h.advances (hs.enter rule) (body_advances rule)
  | _ => trivial

/-- If all that happens directly in a run is in good order, so is what happens inside the rules
that it calls. -/
theorem Grammar.During.descends {g : Grammar α} {s : State} {opened outer : List (Rule × Nat)}
    {e : Event} {stack : Nat} (h : g.During settings stack s opened e) (hs : s.In source)
    (hdirect : ∀ n e, g.Passes settings (callWithin Rule.body settings n) s e → e.Descends outer)
    (hpairs : outer.Pairwise Deeper) :
    (opened ++ outer).Pairwise Deeper ∧ e.Descends (opened ++ outer) := by
  induction h generalizing outer with
  | here hp => exact ⟨hpairs, hdirect _ _ hp⟩
  | inside hp _ _ ih =>
    have ht := (hp.place hs).1
    have hcall := hdirect _ _ hp
    rw [List.append_assoc, List.singleton_append]
    exact ih (ht.enter _) (fun _ _ hp' => descends_body ht hp' hcall) (hpairs.cons hcall)

/-! ## Enough stack -/

namespace Outcome

theorem not_exhausted_andThen {r : Outcome β} {f : β → State → Outcome α} (h : ¬ r.Exhausted)
    (hf : ∀ b t, r = .value b t → ¬ (f b t).Exhausted) : ¬ (r.andThen f).Exhausted := by
  cases r with
  | value b t => exact hf b t rfl
  | mismatch t => rintro ⟨_, _, ⟨⟩, _⟩
  | abort a t =>
    rintro ⟨_, _, ⟨⟩, ha⟩
    exact h ⟨a, t, rfl, ha⟩

theorem not_exhausted_orRetry {r : Outcome α} {start : Cursor} {f : State → Outcome α}
    (h : ¬ r.Exhausted) (hf : ∀ t, r = .mismatch t → ¬ (f (t.moveTo start)).Exhausted) :
    ¬ (orRetry start f r).Exhausted := by
  cases r with
  | mismatch t => exact hf t rfl
  | value | abort => exact h

theorem exhausted_mapState {r : Outcome α} {f : State → State} :
    (r.mapState f).Exhausted ↔ r.Exhausted := by
  cases r <;> simp [Exhausted, mapState]

theorem exhausted_record {memoize : Bool} {rule : Rule} {start : Cursor}
    {r : Outcome rule.Result} : (recordOutcome memoize rule start r).Exhausted ↔ r.Exhausted := by
  cases r <;> simp [Exhausted, recordOutcome]

theorem not_exhausted_abort {s : State} {fault : Fault} {back : Nat}
    (h : fault ≠ .stackExhausted) : ¬ (s.abort (α := α) fault back).Exhausted := by
  rintro ⟨_, _, ⟨⟩, ha⟩
  exact h ha

end Outcome

open Outcome

/-- A loop needs no more rounds than there are characters ahead. -/
theorem iterate_ends {state : σ} {step : σ → Grammar (σ ⊕ α)} (hgo : ∀ state, (step state).GoesOn)
    (bound : List Char) {s : State} (hs : s.In source)
    (hbound : s.cursor.rest.length ≤ bound.length)
    (hstep : ∀ state t, t.In source →
      (∀ rule u, (step state).Passes settings (callWithin Rule.body settings n) t (.call rule u) →
        ¬ (callWithin Rule.body settings n rule u).Exhausted) →
      ¬ ((step state).run settings (callWithin Rule.body settings n) t).Exhausted)
    (hcalls : ∀ rule u, (iterate state step).Passes settings (callWithin Rule.body settings n) s
      (.call rule u) → ¬ (callWithin Rule.body settings n rule u).Exhausted) :
    ¬ (iterateWithin (fun state t => (step state).run settings (callWithin Rule.body settings n) t)
      bound state s).Exhausted := by
  induction bound generalizing state s with
  | nil =>
    rw [iterateWithin_step]
    refine not_exhausted_andThen (hstep state s hs fun rule u hp => hcalls rule u (.step hp))
      fun x t hx => ?_
    cases x with
    | inl next =>
      have hshort := hgo state _ _ _ (run_value hs hx).1
      exact absurd hbound (by simp only [List.length_nil]; omega)
    | inr a => rintro ⟨_, _, ⟨⟩, _⟩
  | cons _ bound ih =>
    rw [iterateWithin_step]
    refine not_exhausted_andThen (hstep state s hs fun rule u hp => hcalls rule u (.step hp))
      fun x t hx => ?_
    cases x with
    | inl next =>
      obtain ⟨hread, ht⟩ := run_value hs hx
      have hshort := hgo state _ _ _ hread
      rw [List.length_cons] at hbound
      exact ih ht (by omega) fun rule u hp => hcalls rule u (.again hx hp)
    | inr a => rintro ⟨_, _, ⟨⟩, _⟩

/-- A run exhausts nothing if the rules that it calls do not. -/
theorem run_ends {g : Grammar α} {s : State} (hs : s.In source) (hg : g.Advances)
    (hfaults : g.AbortsOnly fun fault => fault.isTextual = true)
    (hcalls : ∀ rule t, g.Passes settings (callWithin Rule.body settings n) s (.call rule t) →
      ¬ (callWithin Rule.body settings n rule t).Exhausted) :
    ¬ (g.run settings (callWithin Rule.body settings n) s).Exhausted := by
  induction g generalizing s with
  | bind first next ihf ihn =>
    rw [run_bind]
    refine not_exhausted_andThen (ihf hs hg.1 hfaults.1 fun rule t hp => hcalls rule t (.first hp))
      fun b t hr => ?_
    exact ihn b (run_value hs hr).2 (hg.2 b) (hfaults.2 b) fun rule u hp =>
      hcalls rule u (.next hr hp)
  | orElse first second ihf ihs =>
    refine not_exhausted_orRetry
      (ihf hs hg.1 hfaults.1 fun rule t hp => hcalls rule t (.left hp)) fun t hr => ?_
    exact ihs (hs.moveTo (run_mismatch hs hr).2) hg.2 hfaults.2 fun rule u hp =>
      hcalls rule u (.right hr hp)
  | call rule => exact hcalls rule s .call
  | nested body ih =>
    rw [Grammar.run, nestedWithin]
    split
    · rename_i hadmits
      rw [exhausted_mapState]
      exact ih (hs.withDepth _) hg hfaults.2 fun rule t hp => hcalls rule t (.nested hadmits hp)
    · rw [exhausted_mapState]
      exact not_exhausted_abort (by simp)
  | iterate state step ih =>
    exact iterate_ends (fun state => (hg state).2) _ hs (Nat.le_refl _)
      (fun state t ht => ih state ht (hg state).1 (hfaults state)) hcalls
  | abort fault back =>
    refine not_exhausted_abort ?_
    rintro rfl
    cases hfaults _ rfl
  | accept literal =>
    rw [Grammar.run]
    split <;> rintro ⟨_, _, ⟨⟩, _⟩
  | _ => rintro ⟨_, _, ⟨⟩, _⟩

/-- How many rules may still be open inside a rule that is called at a place. -/
def levelsAhead (source : List Char) (rule : Rule) (offset : Nat) : Nat :=
  (source.length - offset) * Rule.ranks + rule.rank

theorem levelsAhead_lt {inner outer : Rule × Nat} (h : Deeper inner outer)
    (hle : inner.2 ≤ source.length) :
    levelsAhead source inner.1 inner.2 < levelsAhead source outer.1 outer.2 := by
  have hrank := Rule.rank_lt inner.1
  unfold Deeper at h
  simp only [levelsAhead, Rule.ranks] at *
  omega

/-- A rule needs no more levels than its rank and the characters ahead of it ask for. -/
theorem callWithin_ends {rule : Rule} {s : State} (hs : s.In source)
    (hn : levelsAhead source rule s.cursor.offset < n) :
    ¬ (callWithin Rule.body settings n rule s).Exhausted := by
  induction n generalizing rule s with
  | zero => omega
  | succ n ih =>
    rw [callWithin]
    cases hr : settings.recalls rule s with
    | true =>
      rintro ⟨a, t, ha, -⟩
      exact (recallRule_recalled _ hr).1 (by rw [ha]; trivial)
    | false =>
      rw [recallRule_fresh hr, runRule, exhausted_record, exhausted_mapState]
      refine run_ends (hs.enter rule) (body_advances rule) (body_abortsOnly rule)
        fun called t hp => ?_
      obtain ⟨ht, hdeeper⟩ := deeper_of_call hs hp
      have hlt := levelsAhead_lt hdeeper ht.offset_le
      exact ih ht (Nat.lt_of_lt_of_le hlt (Nat.le_of_lt_succ hn))

/-- How many levels are enough for a source. -/
def enoughStack (source : List Char) : Nat := Rule.ranks * (source.length + 1)

theorem start_ends {g : Grammar α} {s : State} (hs : s.In source) (hg : g.Advances)
    (hfaults : g.AbortsOnly fun fault => fault.isTextual = true)
    (hn : enoughStack source ≤ settings.stack) : ¬ (g.start settings s).Exhausted := by
  refine run_ends hs hg hfaults fun rule t hp => ?_
  obtain ⟨ht, -, -⟩ := hp.place hs
  have hrank := Rule.rank_lt rule
  refine callWithin_ends ht ?_
  simp only [levelsAhead, enoughStack, Rule.ranks] at *
  omega

/-! ## Results -/

theorem exhausted_of_runFrom {g : Grammar α}
    (h : (runFrom settings source g).result = .error .stackExhausted) :
    (g.start settings (.initial source)).Exhausted := by
  unfold runFrom at h
  cases hr : g.start settings (.initial source) with
  | value a t => rw [hr] at h; cases h
  | mismatch t => rw [hr] at h; cases h
  | abort a t =>
    rw [hr] at h
    refine ⟨a, t, rfl, ?_⟩
    have ha : ParseError.ofAbort source a = .stackExhausted := Except.error.inj h
    unfold ParseError.ofAbort at ha
    split at ha
    · assumption
    · cases ha
    · cases ha

theorem exhausted_of_parse {source : String}
    (h : parse settings source = .error .stackExhausted) :
    (Grammar.completeExpression.start settings (.initial source.toList)).Exhausted := by
  refine exhausted_of_runFrom ?_
  unfold parse parseWith at h
  dsimp only at h
  generalize runFrom settings source.toList Grammar.completeExpression = p at h
  cases hp : p.result with
  | error e =>
    rw [hp] at h
    exact h
  | ok e =>
    rw [hp] at h
    dsimp only at h
    split at h
    · cases h
    · obtain ⟨error, he, -⟩ := ofTrailing_eq source.toList p.state.cursor.offset p.state.furthest
      rw [he] at h
      cases h

theorem exhausted_of_parsePrefix {source : String}
    (h : parsePrefix settings source = .error .stackExhausted) :
    (Grammar.leadingExpression.start settings (.initial source.toList)).Exhausted := by
  refine exhausted_of_runFrom ?_
  unfold parsePrefix parsePrefixWith at h
  dsimp only at h
  generalize runFrom settings source.toList Grammar.leadingExpression = p at h
  cases hp : p.result with
  | error e =>
    rw [hp] at h
    exact congrArg Except.error (Except.error.inj h)
  | ok e =>
    rw [hp] at h
    cases h

/-- What does not repeat itself while some rules are open, innermost first: a rule is called where
none of them was called, and a loop that goes round has moved on. -/
def Event.MovesOn (opened : List (Rule × Nat)) : Event → Prop
  | call rule t => ((rule, t.cursor.offset) :: opened).Nodup
  | round t u => t.cursor.offset < u.cursor.offset
  | _ => True

/-- In a run from the beginning of a source, no rule is called again at a place where it is still
open, and each loop that goes round has taken a character. -/
theorem Grammar.During.movesOn {g : Grammar α} (hg : g.Advances) {opened : List (Rule × Nat)}
    {e : Event} {stack : Nat} (h : g.During settings stack (.initial source) opened e) :
    e.state.active = opened.map Prod.fst ∧ e.MovesOn opened := by
  have hs := State.In.initial source
  obtain ⟨-, -, hactive⟩ := h.place hs
  have hdirect : ∀ n e, g.Passes settings (callWithin Rule.body settings n) (.initial source) e →
      e.Descends [] := by
    intro n e hp
    cases e with
    | call rule t => exact List.forall_mem_nil _
    | round t u => exact hp.advances hs hg
    | _ => trivial
  obtain ⟨hpairs, hdescends⟩ := h.descends hs hdirect .nil
  rw [List.append_nil] at hpairs hdescends
  refine ⟨hactive.trans (List.append_nil _), ?_⟩
  cases e with
  | call rule t => exact (hpairs.cons hdescends).imp Deeper.ne
  | round t u => exact hdescends
  | _ => trivial

theorem Grammar.advances_leadingExpression : leadingExpression.Advances := by
  simp [leadingExpression]

theorem Grammar.textual_completeExpression : completeExpression.Textual :=
  defectsOnly_completeExpression.mono fun _ => Fault.isTextual_of_isDefect

theorem Grammar.textual_leadingExpression : leadingExpression.Textual := by
  simp [leadingExpression, doesOnly_whitespace, Fault.isTextual]

/-- Parsing ends, with and without a bound on nested expressions and with and without a memo. A
number of levels that is linear in the length of the source is never exhausted. During a parse no
rule is called again at a place where it is still open, and each loop that goes round has taken a
character; so has each round of the one that skips whitespace. -/
theorem parse_terminates (source : String) (maxDepth : Option Nat) (memoize : Bool) (stack : Nat) :
    let settings : Settings := ⟨maxDepth, memoize, stack⟩
    (Rule.ranks * (source.toList.length + 1) ≤ stack →
      parse settings source ≠ .error .stackExhausted ∧
      parsePrefix settings source ≠ .error .stackExhausted) ∧
    (∀ g ∈ [Grammar.completeExpression, Grammar.leadingExpression], ∀ opened e,
      g.During settings stack (.initial source.toList) opened e →
        e.state.active = opened.map Prod.fst ∧ e.MovesOn opened) ∧
    (∀ s n, Whitespace.chunk s = .whole n → 0 < n ∧ n ≤ s.length) ∧
    ∀ bound s : List Char, s.length ≤ bound.length →
      Whitespace.extentWithin bound s = Whitespace.extent s := by
  intro settings
  have hs := State.In.initial source.toList
  refine ⟨fun hn => ?_, ?_, fun s n => Whitespace.chunk_length, ?_⟩
  · have hn : enoughStack source.toList ≤ settings.stack := hn
    exact ⟨fun h => start_ends hs advances_completeExpression textual_completeExpression hn
        (exhausted_of_parse h),
      fun h => start_ends hs advances_leadingExpression textual_leadingExpression hn
        (exhausted_of_parsePrefix h)⟩
  · refine List.forall_mem_cons.mpr ⟨?_, List.forall_mem_singleton.mpr ?_⟩
    · exact fun opened e h => h.movesOn advances_completeExpression
    · exact fun opened e h => h.movesOn advances_leadingExpression
  · exact fun bound s hb => Whitespace.extentWithin_eq hb (Nat.le_refl _)

/-- A list in a list, and the call of its first rule. -/
theorem parse_terminates_lists :
    parse ⟨none, true, 60⟩ "[[1]]" ≠ .error .stackExhausted ∧
      parsePrefix ⟨none, false, 60⟩ "[[1]]" ≠ .error .stackExhausted ∧
      (Event.call .expression (.initial "[[1]]".toList)).MovesOn [] := by
  obtain ⟨hcached, hduring, -⟩ := parse_terminates "[[1]]" none true 60
  obtain ⟨hplain, -⟩ := parse_terminates "[[1]]" none false 60
  refine ⟨(hcached (by decide)).1, (hplain (by decide)).2, ?_⟩
  exact (hduring Grammar.leadingExpression (by simp) [] _ (.here (.next rfl .call))).2

end DhallSyntax
