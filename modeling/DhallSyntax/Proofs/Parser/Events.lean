import DhallSyntax.Proofs.Parser.EntryPoints

/-!
What happens during a run: the text ahead is looked at, rules are called, loops go round,
alternatives give up, and the parse ends because of a fault. Main statement: `Grammar.Passes.place`,
all of it happens at the place of the run or further on, in the same open rules.
-/

namespace DhallSyntax

variable {α β σ : Type} {settings : Settings} {caller : Caller} {source : List Char} {n : Nat}

/-- What happens during a run: the text ahead is looked at, a rule is called in some state, a loop
goes once round from one state to another and stays in the loop, an alternative gives up and notes
what it expected, or the parse is given up because of a fault so many characters back. -/
inductive Event where
  | look (s : State)
  | call (rule : Rule) (s : State)
  | round (s t : State)
  | miss (s : State) (expectation : String)
  | halt (s : State) (fault : Fault) (back : Nat)

/-- The state in which something happens. -/
def Event.state : Event → State
  | look s | call _ s | round s _ | miss s _ | halt s _ _ => s

/-- What happens while a part of a grammar is run, not counting what happens inside the rules that
it calls. -/
inductive Grammar.Passes (settings : Settings) (caller : Caller) :
    {α : Type} → Grammar α → State → Event → Prop where
  | first {α β : Type} {first : Grammar β} {next : β → Grammar α} {s : State} {e : Event} :
      Passes settings caller first s e → Passes settings caller (.bind first next) s e
  | next {α β : Type} {first : Grammar β} {next : β → Grammar α} {s t : State} {b : β}
      {e : Event} : first.run settings caller s = .value b t →
      Passes settings caller (next b) t e → Passes settings caller (.bind first next) s e
  | left {α : Type} {first second : Grammar α} {s : State} {e : Event} :
      Passes settings caller first s e → Passes settings caller (.orElse first second) s e
  | right {α : Type} {first second : Grammar α} {s t : State} {e : Event} :
      first.run settings caller s = .mismatch t →
      Passes settings caller second (t.moveTo s.cursor) e →
      Passes settings caller (.orElse first second) s e
  | look {α : Type} {view : List Char → α} {s : State} :
      Passes settings caller (.look view) s (.look s)
  | call {rule : Rule} {s : State} : Passes settings caller (.call rule) s (.call rule s)
  | refused {α : Type} {body : Grammar α} {s : State} :
      settings.admits (s.depth + 1) = false →
      Passes settings caller (.nested body) s
        (.halt (s.withDepth (s.depth + 1)) (.defect (.tooDeep (settings.maxDepth.getD 0))) 0)
  | nested {α : Type} {body : Grammar α} {s : State} {e : Event} :
      settings.admits (s.depth + 1) = true →
      Passes settings caller body (s.withDepth (s.depth + 1)) e →
      Passes settings caller (.nested body) s e
  | step {α σ : Type} {state : σ} {step : σ → Grammar (σ ⊕ α)} {s : State} {e : Event} :
      Passes settings caller (step state) s e → Passes settings caller (.iterate state step) s e
  | round {α σ : Type} {state next : σ} {step : σ → Grammar (σ ⊕ α)} {s t : State} :
      (step state).run settings caller s = .value (.inl next) t →
      Passes settings caller (.iterate state step) s (.round s t)
  | again {α σ : Type} {state next : σ} {step : σ → Grammar (σ ⊕ α)} {s t : State} {e : Event} :
      (step state).run settings caller s = .value (.inl next) t →
      Passes settings caller (.iterate next step) t e →
      Passes settings caller (.iterate state step) s e
  | miss {α : Type} {expectation : String} {s : State} :
      Passes settings caller (.fail expectation : Grammar α) s (.miss s expectation)
  | halt {α : Type} {fault : Fault} {back : Nat} {s : State} :
      Passes settings caller (.abort fault back : Grammar α) s (.halt s fault back)

/-- What happens while a part of a grammar is run, inside the rules that it calls as well. The rules
that are open then are listed with the offsets where they were called, innermost first. -/
inductive Grammar.During (settings : Settings) :
    {α : Type} → (stack : Nat) → Grammar α → State → List (Rule × Nat) → Event → Prop where
  | here {α : Type} {stack : Nat} {g : Grammar α} {s : State} {e : Event} :
      g.Passes settings (callWithin Rule.body settings stack) s e → During settings stack g s [] e
  | inside {α : Type} {stack : Nat} {g : Grammar α} {s t : State} {rule : Rule}
      {opened : List (Rule × Nat)} {e : Event} :
      g.Passes settings (callWithin Rule.body settings (stack + 1)) s (.call rule t) →
      settings.recalls rule t = false →
      During settings stack rule.body (t.enter rule) opened e →
      During settings (stack + 1) g s (opened ++ [(rule, t.cursor.offset)]) e

/-! ## Where it happens -/

/-- Reading goes onward, so what a run yields is at the same place or further on. -/
theorem run_onward {g : Grammar α} {s t : State} (hs : s.In source) {a : α}
    (h : g.run settings (callWithin Rule.body settings n) s = .value a t) :
    t.In source ∧ s.cursor.offset ≤ t.cursor.offset := by
  obtain ⟨hread, ht⟩ := run_value hs h
  have hleaves := Grammar.readBy_leaves (fun rule s => (Rule.read_sourced rule s).leaves) g
    s.cursor.rest a _ hread
  have hshort := hleaves.length_le
  have hsource := hs.offset_add
  have htarget := ht.offset_add
  exact ⟨ht, by omega⟩

/-- An alternative that did not match stands in the same open rules. -/
theorem run_mismatch_active {g : Grammar α} {s t : State} (hs : s.In source)
    (h : g.run settings (callWithin Rule.body settings n) s = .mismatch t) :
    t.active = s.active := by
  obtain ⟨-, ⟨-, _, _, _, hr, -⟩ | ⟨⟨_, _, hr, -⟩, -⟩ | ⟨k, -, -, hr⟩⟩ :=
    (run_accounted (callWithin_accounted n) g s hs.sound : Accounted Rule.body source settings n
      _ s (g.run settings (callWithin Rule.body settings n) s))
  · rw [h] at hr
    cases hr
  · rw [h] at hr
    cases hr
  · rw [h] at hr
    exact (Account.alike_mismatch hr).2.active.symm

/-- Whatever happens during a run happens at its place or further on, in the same open rules. -/
theorem Grammar.Passes.place {g : Grammar α} {s : State} {e : Event}
    (h : g.Passes settings (callWithin Rule.body settings n) s e) (hs : s.In source) :
    e.state.In source ∧ s.cursor.offset ≤ e.state.cursor.offset ∧ e.state.active = s.active := by
  induction h with
  | first _ ih | left _ ih | step _ ih => exact ih hs
  | next hr _ ih =>
    obtain ⟨ht, honward⟩ := run_onward hs hr
    obtain ⟨he, hlater, hactive⟩ := ih ht
    exact ⟨he, Nat.le_trans honward hlater, hactive.trans (run_active hs hr)⟩
  | right hr _ ih =>
    obtain ⟨-, ht⟩ := run_mismatch hs hr
    obtain ⟨he, hlater, hactive⟩ := ih (hs.moveTo ht)
    have hback := run_mismatch_active hs hr
    exact ⟨he, hlater, hactive.trans hback⟩
  | nested _ _ ih => exact ih (hs.withDepth _)
  | again hr _ ih =>
    obtain ⟨ht, honward⟩ := run_onward hs hr
    obtain ⟨he, hlater, hactive⟩ := ih ht
    exact ⟨he, Nat.le_trans honward hlater, hactive.trans (run_active hs hr)⟩
  | refused => exact ⟨hs.withDepth _, Nat.le_refl _, rfl⟩
  | look | call | round | miss | halt => exact ⟨hs, Nat.le_refl _, rfl⟩

/-- Whatever happens inside the rules that a run calls happens in the source, with those rules open
and the ones that were open before. -/
theorem Grammar.During.place {g : Grammar α} {s : State} {opened : List (Rule × Nat)} {e : Event}
    {stack : Nat} (h : g.During settings stack s opened e) (hs : s.In source) :
    e.state.In source ∧ s.cursor.offset ≤ e.state.cursor.offset ∧
      e.state.active = opened.map Prod.fst ++ s.active := by
  induction h with
  | here hp => exact hp.place hs
  | inside hp _ _ ih =>
    obtain ⟨ht, honward, hactive⟩ := hp.place hs
    obtain ⟨he, hlater, hopen⟩ := ih (ht.enter _)
    refine ⟨he, Nat.le_trans honward hlater, hopen.trans ?_⟩
    simp only [List.map_append, List.map_cons, List.map_nil, List.append_assoc,
      List.singleton_append]
    exact congrArg (fun active => _ ++ _ :: active) hactive

/-! ## What happens in the parts of a run -/

namespace Grammar

/-- Something that happens while a part of a grammar is run has a property, not counting what
happens inside the rules that it calls. -/
def Meets (settings : Settings) (caller : Caller) (P : Event → Prop) (g : Grammar α) (s : State) :
    Prop :=
  ∃ e, g.Passes settings caller s e ∧ P e

variable {P : Event → Prop} {s : State}

theorem meets_bind {first : Grammar β} {next : β → Grammar α} :
    (bind first next).Meets settings caller P s ↔ first.Meets settings caller P s ∨
      ∃ b t, first.run settings caller s = .value b t ∧ (next b).Meets settings caller P t := by
  constructor
  · rintro ⟨e, hp, he⟩
    cases hp with
    | first hp => exact .inl ⟨e, hp, he⟩
    | next hr hp => exact .inr ⟨_, _, hr, e, hp, he⟩
  · rintro (⟨e, hp, he⟩ | ⟨b, t, hr, e, hp, he⟩)
    · exact ⟨e, .first hp, he⟩
    · exact ⟨e, .next hr hp, he⟩

theorem meets_orElse {first second : Grammar α} :
    (orElse first second).Meets settings caller P s ↔ first.Meets settings caller P s ∨
      ∃ t, first.run settings caller s = .mismatch t ∧
        second.Meets settings caller P (t.moveTo s.cursor) := by
  constructor
  · rintro ⟨e, hp, he⟩
    cases hp with
    | left hp => exact .inl ⟨e, hp, he⟩
    | right hr hp => exact .inr ⟨_, hr, e, hp, he⟩
  · rintro (⟨e, hp, he⟩ | ⟨t, hr, e, hp, he⟩)
    · exact ⟨e, .left hp, he⟩
    · exact ⟨e, .right hr hp, he⟩

theorem meets_nested {body : Grammar α} :
    (nested body).Meets settings caller P s ↔
      (settings.admits (s.depth + 1) = true ∧
        body.Meets settings caller P (s.withDepth (s.depth + 1))) ∨
      (settings.admits (s.depth + 1) = false ∧ P (.halt (s.withDepth (s.depth + 1))
        (.defect (.tooDeep (settings.maxDepth.getD 0))) 0)) := by
  constructor
  · rintro ⟨e, hp, he⟩
    cases hp with
    | nested ha hp => exact .inl ⟨ha, e, hp, he⟩
    | refused ha => exact .inr ⟨ha, he⟩
  · rintro (⟨ha, e, hp, he⟩ | ⟨ha, he⟩)
    · exact ⟨e, .nested ha hp, he⟩
    · exact ⟨_, .refused ha, he⟩

theorem meets_iterate {state : σ} {step : σ → Grammar (σ ⊕ α)} :
    (iterate state step).Meets settings caller P s ↔ (step state).Meets settings caller P s ∨
      ∃ next t, (step state).run settings caller s = .value (.inl next) t ∧
        (P (.round s t) ∨ (iterate next step).Meets settings caller P t) := by
  constructor
  · rintro ⟨e, hp, he⟩
    cases hp with
    | step hp => exact .inl ⟨e, hp, he⟩
    | round hr => exact .inr ⟨_, _, hr, .inl he⟩
    | again hr hp => exact .inr ⟨_, _, hr, .inr ⟨e, hp, he⟩⟩
  · rintro (⟨e, hp, he⟩ | ⟨next, t, hr, he | ⟨e, hp, he⟩⟩)
    · exact ⟨e, .step hp, he⟩
    · exact ⟨_, .round hr, he⟩
    · exact ⟨e, .again hr hp, he⟩

/-- What happens where a part of a grammar has no parts itself. -/
def Direct (s : State) (e : Event) : Grammar α → Prop
  | .pure _ | .accept _ | .advance _ | .mismatch => False
  | .look _ => e = .look s
  | .fail expectation => e = .miss s expectation
  | .abort fault back => e = .halt s fault back
  | .call rule => e = .call rule s
  | .bind _ _ | .orElse _ _ | .nested _ | .iterate _ _ => True

theorem Passes.direct {g : Grammar α} {e : Event} (h : g.Passes settings caller s e) :
    g.Direct s e := by
  cases h with
  | look | call | miss | halt => rfl
  | _ => trivial

theorem meets_call {rule : Rule} :
    (call rule).Meets settings caller P s ↔ P (.call rule s) := by
  constructor
  · rintro ⟨e, hp, he⟩
    obtain rfl : e = .call rule s := hp.direct
    exact he
  · exact fun he => ⟨_, .call, he⟩

theorem meets_fail {expectation : String} :
    (fail expectation : Grammar α).Meets settings caller P s ↔ P (.miss s expectation) := by
  constructor
  · rintro ⟨e, hp, he⟩
    obtain rfl : e = .miss s expectation := hp.direct
    exact he
  · exact fun he => ⟨_, .miss, he⟩

theorem meets_abort {fault : Fault} {back : Nat} :
    (abort fault back : Grammar α).Meets settings caller P s ↔ P (.halt s fault back) := by
  constructor
  · rintro ⟨e, hp, he⟩
    obtain rfl : e = .halt s fault back := hp.direct
    exact he
  · exact fun he => ⟨_, .halt, he⟩

/-- Something happens while a part of a grammar is run, inside the rules that it calls as well. -/
def Happens (settings : Settings) (stack : Nat) (g : Grammar α) (s : State) (e : Event) : Prop :=
  ∃ opened, g.During settings stack s opened e

end Grammar

/-- Something is a part of what happens directly in a run: it is that itself, or it happens in a
rule that is called then and not recalled. -/
def Event.Contains (settings : Settings) (e : Event) : (stack : Nat) → Event → Prop
  | stack + 1, call rule t =>
    e = call rule t ∨ settings.recalls rule t = false ∧
      rule.body.Happens settings stack (t.enter rule) e
  | _, direct => e = direct

theorem Grammar.happens_iff {stack : Nat} {g : Grammar α} {s : State} {e : Event} :
    g.Happens settings stack s e ↔
      g.Meets settings (callWithin Rule.body settings stack) (e.Contains settings stack) s := by
  constructor
  · rintro ⟨opened, h⟩
    cases h with
    | here hp =>
      refine ⟨e, hp, ?_⟩
      unfold Event.Contains
      split
      · exact .inl rfl
      · rfl
    | inside hp hr h => exact ⟨_, hp, .inr ⟨hr, _, h⟩⟩
  · rintro ⟨direct, hp, he⟩
    unfold Event.Contains at he
    split at he
    · obtain rfl | ⟨hr, opened, h⟩ := he
      · exact ⟨[], .here hp⟩
      · exact ⟨_, .inside hp hr h⟩
    · subst he
      exact ⟨[], .here hp⟩

namespace Grammar

variable {s : State} {e : Event}

theorem happens_bind {first : Grammar β} {next : β → Grammar α} :
    (bind first next).Happens settings n s e ↔ first.Happens settings n s e ∨
      ∃ b t, first.run settings (callWithin Rule.body settings n) s = .value b t ∧
        (next b).Happens settings n t e := by
  simp only [happens_iff, meets_bind]

theorem happens_orElse {first second : Grammar α} :
    (orElse first second).Happens settings n s e ↔ first.Happens settings n s e ∨
      ∃ t, first.run settings (callWithin Rule.body settings n) s = .mismatch t ∧
        second.Happens settings n (t.moveTo s.cursor) e := by
  simp only [happens_iff, meets_orElse]

theorem happens_nested {body : Grammar α} :
    (nested body).Happens settings n s e ↔
      (settings.admits (s.depth + 1) = true ∧
        body.Happens settings n (s.withDepth (s.depth + 1)) e) ∨
      (settings.admits (s.depth + 1) = false ∧ e = .halt (s.withDepth (s.depth + 1))
        (.defect (.tooDeep (settings.maxDepth.getD 0))) 0) := by
  simp only [happens_iff, meets_nested, Event.Contains]

theorem happens_iterate {state : σ} {step : σ → Grammar (σ ⊕ α)} :
    (iterate state step).Happens settings n s e ↔ (step state).Happens settings n s e ∨
      ∃ next t, (step state).run settings (callWithin Rule.body settings n) s =
          .value (.inl next) t ∧
        (e = .round s t ∨ (iterate next step).Happens settings n t e) := by
  rw [happens_iff, meets_iterate]
  simp only [happens_iff, Event.Contains]

theorem happens_call {rule : Rule} :
    (call rule).Happens settings (n + 1) s e ↔ e = .call rule s ∨
      settings.recalls rule s = false ∧ rule.body.Happens settings n (s.enter rule) e := by
  rw [happens_iff, meets_call, Event.Contains]

/-- Without levels for it a rule is called, and nothing happens inside it. -/
theorem happens_call_zero {rule : Rule} :
    (call rule).Happens settings 0 s e ↔ e = .call rule s := by
  rw [happens_iff, meets_call, Event.Contains]
  exact fun _ _ _ hn => absurd hn (Nat.succ_ne_zero _).symm

theorem happens_fail {expectation : String} :
    (fail expectation : Grammar α).Happens settings n s e ↔ e = .miss s expectation := by
  simp only [happens_iff, meets_fail, Event.Contains]

theorem happens_abort {fault : Fault} {back : Nat} :
    (abort fault back : Grammar α).Happens settings n s e ↔ e = .halt s fault back := by
  simp only [happens_iff, meets_abort, Event.Contains]

theorem happens_look {view : List Char → α} :
    (look view).Happens settings n s e ↔ e = .look s := by
  rw [happens_iff]
  constructor
  · rintro ⟨d, hp, he⟩
    obtain rfl : d = .look s := hp.direct
    simpa only [Event.Contains] using he
  · rintro rfl
    exact ⟨_, .look, by simp only [Event.Contains]⟩

end Grammar

end DhallSyntax
