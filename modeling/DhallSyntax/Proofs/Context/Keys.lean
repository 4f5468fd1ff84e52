import DhallSyntax.Proofs.Parser.Events

/-!
What a memo knows in front of a place. Main statement: `run_untouched`, a run stores outcomes at its
place and further on, so what the memo knows of earlier places stays as it was.
-/

namespace DhallSyntax

variable {α β σ : Type} {settings : Settings} {source : List Char} {n : Nat}

namespace Memo

/-- Whether a memo has the outcome of a rule at an offset. -/
def knows (memo : Memo) (rule : Rule) (offset : Nat) : Bool :=
  (memo.get? (rule, offset)).isSome

theorem knows_insert {memo : Memo} {rule rule' : Rule} {offset offset' : Nat}
    {entry : MemoEntry rule} :
    knows (memo.insert (rule, offset) entry) rule' offset' =
      (decide ((rule, offset) = (rule', offset')) || knows memo rule' offset') := by
  simp only [knows, Std.DTreeMap.get?_insert]
  by_cases h : (rule, offset) = (rule', offset')
  · rw [dif_pos (Std.LawfulEqCmp.compare_eq_iff_eq.mpr h)]
    simp [h]
  · rw [dif_neg fun he => h (Std.LawfulEqCmp.compare_eq_iff_eq.mp he)]
    simp [h]

@[simp] theorem knows_empty (rule : Rule) (offset : Nat) :
    knows ∅ rule offset = false := by
  simp [knows]

end Memo

theorem Settings.recalls_eq (settings : Settings) (rule : Rule) (s : State) :
    settings.recalls rule s = (settings.memoize && Memo.knows s.memo rule s.cursor.offset) := rfl

/-- No outcome of a rule that begins at a place or behind it is stored at an offset. -/
def Settings.Spares (settings : Settings) (offset place : Nat) : Prop :=
  settings.memoize = false ∨ offset < place

theorem Settings.Spares.onward {offset place place' : Nat} (h : settings.Spares offset place)
    (hp : place ≤ place') : settings.Spares offset place' :=
  h.imp_right fun ho => Nat.lt_of_lt_of_le ho hp

/-- An outcome leaves a memo that knows the same at an offset. -/
def Outcome.Untouched (offset : Nat) (memo : Memo) (r : Outcome α) : Prop :=
  ∀ rule, Memo.knows r.state.memo rule offset = Memo.knows memo rule offset

namespace Outcome.Untouched

variable {offset : Nat} {memo : Memo}

theorem andThen {r : Outcome β} {f : β → State → Outcome α} (h : r.Untouched offset memo)
    (hf : ∀ b t, r = .value b t → (f b t).Untouched offset t.memo) :
    (r.andThen f).Untouched offset memo := by
  cases r with
  | value b t => exact fun rule => (hf b t rfl rule).trans (h rule)
  | mismatch t => exact h
  | abort a t => exact h

theorem orRetry {r : Outcome α} {start : Cursor} {f : State → Outcome α}
    (h : r.Untouched offset memo)
    (hf : ∀ t, r = .mismatch t → (f (t.moveTo start)).Untouched offset t.memo) :
    (Outcome.orRetry start f r).Untouched offset memo := by
  cases r with
  | mismatch t => exact fun rule => (hf t rfl rule).trans (h rule)
  | value b t => exact h
  | abort a t => exact h

theorem mapState {r : Outcome α} {f : State → State} (h : r.Untouched offset memo)
    (hf : ∀ t, (f t).memo = t.memo) : (r.mapState f).Untouched offset memo := by
  intro rule
  have hmemo : (r.mapState f).state.memo = r.state.memo := by cases r <;> exact hf _
  rw [hmemo]
  exact h rule

end Outcome.Untouched

open Outcome (Untouched)

section Runs

variable {offset : Nat} {s : State}

/-- The outcome of a rule is stored where the rule began. -/
theorem runRule_untouched {rule : Rule} {body : State → Outcome rule.Result}
    (h : (body (s.enter rule)).Untouched offset s.memo) (ho : settings.Spares offset s.cursor.offset) :
    (runRule settings rule body s).Untouched offset s.memo := by
  have hstore : settings.memoize = true → ∀ (t : State) (entry : MemoEntry rule) rule',
      Memo.knows (t.store rule s.cursor.offset entry).memo rule' offset =
        Memo.knows t.memo rule' offset := by
    intro hm t entry rule'
    have ho : offset < s.cursor.offset := ho.resolve_left (by rw [hm]; exact Bool.noConfusion)
    have hne : (rule, s.cursor.offset) ≠ (rule', offset) := by
      intro he
      have := congrArg Prod.snd he
      dsimp only at this
      omega
    simp only [State.store, Memo.knows_insert, hne, decide_false, Bool.false_or]
  intro rule'
  rw [← h rule', runRule]
  cases body (s.enter rule) with
  | value a t =>
    cases hm : settings.memoize with
    | false => rfl
    | true => exact hstore hm _ _ rule'
  | mismatch t =>
    cases hm : settings.memoize with
    | false => rfl
    | true => exact hstore hm _ _ rule'
  | abort a t => rfl

theorem recallRule_memo {rule : Rule} (body : State → Outcome rule.Result)
    (h : settings.recalls rule s = true) : (recallRule settings rule body s).state.memo = s.memo :=
  (recallRule_recalled body h).2

theorem iterate_untouched {state : σ} {step : σ → Grammar (σ ⊕ α)} (bound : List Char)
    (hs : s.In source) (ho : settings.Spares offset s.cursor.offset)
    (hstep : ∀ state t, t.In source → settings.Spares offset t.cursor.offset →
      ((step state).run settings (callWithin Rule.body settings n) t).Untouched offset t.memo) :
    (iterateWithin (fun state t => (step state).run settings (callWithin Rule.body settings n) t)
      bound state s).Untouched offset s.memo := by
  induction bound generalizing state s with
  | nil =>
    rw [iterateWithin_step]
    refine (hstep state s hs ho).andThen fun x t hx => ?_
    cases x <;> exact fun _ => rfl
  | cons _ bound ih =>
    rw [iterateWithin_step]
    refine (hstep state s hs ho).andThen fun x t hx => ?_
    cases x with
    | inl next =>
      obtain ⟨ht, honward⟩ := run_onward hs hx
      exact ih ht (ho.onward honward)
    | inr a => exact fun _ => rfl

theorem run_untouched_of (g : Grammar α) (hs : s.In source) (ho : settings.Spares offset s.cursor.offset)
    (hcalls : ∀ (rule : Rule) (t : State), t.In source → settings.Spares offset t.cursor.offset →
      (callWithin Rule.body settings n rule t).Untouched offset t.memo) :
    (g.run settings (callWithin Rule.body settings n) s).Untouched offset s.memo := by
  induction g generalizing s with
  | bind first next ihf ihn =>
    rw [run_bind]
    refine (ihf hs ho).andThen fun b t hr => ?_
    obtain ⟨ht, honward⟩ := run_onward hs hr
    exact ihn b ht (ho.onward honward)
  | orElse first second ihf ihs =>
    exact (ihf hs ho).orRetry fun t hr => ihs (hs.moveTo (run_mismatch hs hr).2) ho
  | call rule => exact hcalls rule s hs ho
  | nested body ih =>
    rw [Grammar.run, nestedWithin]
    split
    · exact (ih (hs.withDepth (s.depth + 1)) ho).mapState fun _ => rfl
    · exact fun _ => rfl
  | iterate state step ih =>
    exact iterate_untouched _ hs ho fun state t ht hot => ih state ht hot
  | accept literal =>
    rw [Grammar.run]
    split <;> exact fun _ => rfl
  | _ => exact fun _ => rfl

theorem callWithin_untouched (rule : Rule) (hs : s.In source) (ho : settings.Spares offset s.cursor.offset) :
    (callWithin Rule.body settings n rule s).Untouched offset s.memo := by
  induction n generalizing rule s with
  | zero => exact fun _ => rfl
  | succ n ih =>
    rw [callWithin]
    cases hr : settings.recalls rule s with
    | true =>
      intro rule'
      rw [recallRule_memo _ hr]
    | false =>
      rw [recallRule_fresh hr]
      refine runRule_untouched ?_ ho
      exact run_untouched_of rule.body (hs.enter rule) ho fun rule t ht hot => ih rule ht hot

/-- What the memo knows of earlier places stays as it was; without a memo it does everywhere. -/
theorem run_untouched (g : Grammar α) (hs : s.In source) (ho : settings.Spares offset s.cursor.offset) :
    (g.run settings (callWithin Rule.body settings n) s).Untouched offset s.memo :=
  run_untouched_of g hs ho fun rule _ ht hot => callWithin_untouched rule ht hot

end Runs

end DhallSyntax
