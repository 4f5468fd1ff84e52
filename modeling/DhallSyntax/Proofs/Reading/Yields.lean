import DhallSyntax.Proofs.Reading.Parts

/-!
What the values have in common that a part of a grammar yields, whatever the text is. `Yields` goes
through each way to put parts together, so that a fact about all values of a rule is proved by a
walk over its body.
-/

namespace DhallSyntax

/-- Whatever a part yields has a property, if rules are read as given. -/
def Grammar.Yields {α : Type} (rules : RuleReader) (P : α → Prop) (g : Grammar α) : Prop :=
  ∀ s a t, g.readBy rules s = .value a t → P a

namespace Grammar

variable {α β σ : Type} {rules : RuleReader} {P : α → Prop} {Q : β → Prop}

theorem yields_pure {a : α} (h : P a) : (Pure.pure a : Grammar α).Yields rules P := by
  intro s b t hb
  cases hb
  exact h

theorem yields_fail (expectation : String) : (fail expectation : Grammar α).Yields rules P :=
  fun _ _ _ h => nomatch h

theorem yields_mismatch : (mismatch : Grammar α).Yields rules P := fun _ _ _ h => nomatch h

theorem yields_abort (fault : Fault) (back : Nat) :
    (abort fault back : Grammar α).Yields rules P := fun _ _ _ h => nomatch h

theorem Yields.any (g : Grammar α) : g.Yields rules fun _ => True := fun _ _ _ _ => trivial

theorem Yields.imp {g : Grammar α} {P' : α → Prop} (h : g.Yields rules P) (hp : ∀ a, P a → P' a) :
    g.Yields rules P' :=
  fun s a t ha => hp a (h s a t ha)

theorem Yields.bind {first : Grammar β} {next : β → Grammar α} (h : first.Yields rules Q)
    (hn : ∀ b, Q b → (next b).Yields rules P) : (first >>= next).Yields rules P := by
  intro s a t ha
  obtain ⟨b, u, hb, ha⟩ := Reading.bind_eq_value.mp ha
  exact hn b (h s b u hb) u a t ha

/-- Whatever the first part yields. -/
theorem Yields.behind {first : Grammar β} {next : β → Grammar α}
    (hn : ∀ b, (next b).Yields rules P) : (first >>= next).Yields rules P :=
  Yields.bind (.any first) fun b _ => hn b

theorem yields_look {view : List Char → α} (h : ∀ s, P (view s)) :
    (look view).Yields rules P := by
  intro s a t ha
  cases ha
  exact h s

theorem Yields.orElse {first second : Grammar α} (h : first.Yields rules P)
    (hs : second.Yields rules P) : (orElse first second).Yields rules P := by
  intro s a t ha
  obtain ha | ⟨-, ha⟩ := Reading.orElse_eq_value.mp ha
  · exact h s a t ha
  · exact hs s a t ha

theorem Yields.choice {alternatives : List (Grammar α)}
    (h : ∀ g ∈ alternatives, g.Yields rules P) : (choice alternatives).Yields rules P := by
  induction alternatives with
  | nil => exact yields_mismatch
  | cons g rest ih =>
    obtain ⟨hg, hrest⟩ := List.forall_mem_cons.mp h
    exact hg.orElse (ih hrest)

theorem Yields.optional? {part : Grammar α} (h : part.Yields rules P) :
    (optional? part).Yields rules fun value => ∀ a, value = some a → P a :=
  .orElse
    (.bind h fun _ ha => yields_pure fun _ he => Option.some.inj he ▸ ha)
    (yields_pure fun _ he => nomatch he)

theorem Yields.nested {body : Grammar α} (h : body.Yields rules P) :
    (nested body).Yields rules P :=
  h

theorem yields_call {rule : Rule} {P : rule.Result → Prop}
    (h : ∀ s a t, rules rule s = .value a t → P a) :
    @Yields rule.Result rules P (call rule) :=
  h

/-- An invariant of the steps of a repetition, that the last of them turns into `P`. -/
theorem Yields.iterate (I : σ → Prop) {state : σ} {step : σ → Grammar (σ ⊕ α)} (hs : I state)
    (h : ∀ state, I state → (step state).Yields rules (Sum.elim I P)) :
    (iterate state step).Yields rules P := by
  intro s a t ha
  refine Reading.iterateWithin_induction (P := fun state _ => I state → P a) ?_ ?_ ha hs
  · exact fun state s hstep hI => h state hI s _ t hstep
  · exact fun state s state' s' hstep ih hI => ih (h state hI s _ s' hstep)

theorem Yields.foldMany {part : Grammar β} {f : α → β → α} {start : α} (h : part.Yields rules Q)
    (hs : P start) (hf : ∀ a b, P a → Q b → P (f a b)) :
    (foldMany part f start).Yields rules P :=
  .iterate P hs fun a ha => .bind h.optional? fun
    | some b, hb => yields_pure (hf a b ha (hb b rfl))
    | none, _ => yields_pure ha

theorem Yields.many {part : Grammar α} (h : part.Yields rules P) :
    (many part).Yields rules fun values => ∀ a ∈ values, P a :=
  .bind (.foldMany (P := fun values => ∀ a ∈ values, P a) h (fun _ ha => nomatch ha)
      fun _ _ hvalues ha => List.forall_mem_cons.mpr ⟨ha, hvalues⟩)
    fun _ h => yields_pure fun a ha => h a (List.mem_reverse.mp ha)

/-! ## Runs of characters -/

theorem mem_takeWhile {p : Char → Bool} {s : List Char} {c : Char} (h : c ∈ s.takeWhile p) :
    p c = true :=
  List.all_eq_true.mp (List.all_takeWhile (p := p) (l := s)) c h

theorem yields_takeWhile (chars : CharClass) :
    (takeWhile chars).Yields rules fun run => ∀ c ∈ run, chars c = true := by
  intro s run t h
  rw [readBy_takeWhile] at h
  cases h
  exact fun c hc => mem_takeWhile hc

theorem yields_takeWhile1 (chars : CharClass) (expected : String) :
    (takeWhile1 chars expected).Yields rules fun run => run ≠ [] ∧ ∀ c ∈ run, chars c = true := by
  refine .bind (yields_takeWhile chars) fun run hrun => ?_
  split
  · exact yields_fail expected
  · rename_i hne
    exact yields_pure ⟨fun he => hne (he ▸ rfl), hrun⟩

theorem yields_takeIf (chars : CharClass) :
    (takeIf chars).Yields rules fun c? => ∀ c, c? = some c → chars c = true := by
  refine .behind fun c? => ?_
  cases c? with
  | none => exact yields_pure fun _ h => nomatch h
  | some c =>
    dsimp only
    split
    · rename_i hc
      exact .behind fun _ => yields_pure fun d hd => Option.some.inj hd ▸ hc
    · exact yields_pure fun _ h => nomatch h

end Grammar

end DhallSyntax
