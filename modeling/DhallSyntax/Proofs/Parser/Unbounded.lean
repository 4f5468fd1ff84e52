import DhallSyntax.Proofs.Parser.Account

/-!
Runs that neither remember outcomes nor bound the expressions inside each other. Main statement:
`callWithin_eq_lift`, such a run does exactly what the account says, whatever else its state holds.
-/

namespace DhallSyntax

/-- Goes on from the value of an outcome. -/
def Outcome.andThen {α β : Type} (r : Outcome β) (next : β → State → Outcome α) : Outcome α :=
  match r with
  | .value b s => next b s
  | .mismatch s => .mismatch s
  | .abort a s => .abort a s

theorem run_bind {settings : Settings} {caller : Caller} {α β : Type} (first : Grammar β)
    (next : β → Grammar α) (s : State) :
    (Grammar.bind first next).run settings caller s =
      (first.run settings caller s).andThen fun b s => (next b).run settings caller s := by
  rw [Grammar.run]
  cases first.run settings caller s <;> rfl

theorem iterateWithin_step {α σ : Type} (step : σ → State → Outcome (σ ⊕ α)) (bound : List Char)
    (state : σ) (s : State) :
    iterateWithin step bound state s =
      (step state s).andThen fun
        | .inr a, s => .value a s
        | .inl next, s =>
          match bound with
          | [] => s.abort .stackExhausted 0
          | _ :: bound => iterateWithin step bound next s := by
  rw [iterateWithin.eq_def]
  cases h : step state s with
  | value x t => cases x <;> cases bound <;> simp only [h, Outcome.andThen]
  | mismatch t => simp only [h, Outcome.andThen]
  | abort a t => simp only [h, Outcome.andThen]

namespace Account

variable {α β σ : Type}

/-- The state at the end of an account that begins in a state. -/
def stateAfter (A : Account α) (s : State) : State :=
  { s with
    cursor := A.ending.stop
    furthest := A.misses.foldl
      (fun f m => Furthest.note f m.offset m.expectation (s.rules ++ m.rules)) s.furthest }

/-- An account as the outcome of a run that begins in a state. -/
def lift (A : Account α) (s : State) : Outcome α :=
  match A.ending with
  | .value a _ => .value a (A.stateAfter s)
  | .mismatch _ => .mismatch (A.stateAfter s)
  | .abort a _ => .abort { a with rules := s.rules ++ a.rules } (A.stateAfter s)

@[simp] theorem lift_state (A : Account α) (s : State) : (A.lift s).state = A.stateAfter s := by
  unfold lift
  split <;> rfl

@[simp] theorem stateAfter_cursor (A : Account α) (s : State) :
    (A.stateAfter s).cursor = A.ending.stop := rfl

/-- What is accounted for later begins in the state that is left. -/
theorem after_lift (A : Account β) (B : Account α) (s : State) :
    (B.after A.misses).lift s = B.lift (A.stateAfter s) := by
  have hs : (B.after A.misses).stateAfter s = B.stateAfter (A.stateAfter s) := by
    simp only [stateAfter, after, List.foldl_append, State.rules]
  unfold lift
  rw [hs]
  rfl

/-- Going back changes nothing but the place. -/
theorem after_lift_moveTo (A : Account β) (B : Account α) (s : State) :
    (B.after A.misses).lift s = B.lift ((A.stateAfter s).moveTo s.cursor) := by
  rw [after_lift]
  rfl

theorem bind_lift (A : Account β) (next : β → Cursor → Account α) (s : State) :
    (A.bind next).lift s = (A.lift s).andThen fun b t => (next b t.cursor).lift t := by
  obtain ⟨misses, ending⟩ := A
  cases ending with
  | value b c => exact after_lift ⟨misses, .value b c⟩ _ s
  | mismatch c => rfl
  | abort a c => rfl

theorem orElse_lift (A B : Account α) (s : State) :
    (A.orElse B).lift s = .orRetry s.cursor B.lift (A.lift s) := by
  obtain ⟨misses, ending⟩ := A
  cases ending with
  | value b c => rfl
  | mismatch c => exact after_lift ⟨misses, .mismatch c⟩ B s
  | abort a c => rfl

theorem halt_lift (fault : Fault) (back : Nat) (s : State) :
    (halt (α := α) fault back s.cursor).lift s = s.abort fault back := by
  simp [halt, lift, stateAfter, State.abort, Ending.stop]

/-- An account does not depend on how many expressions are open. -/
theorem lift_withDepth (A : Account α) (s : State) :
    (A.lift (s.withDepth (s.depth + 1))).mapState (fun t => t.withDepth (t.depth - 1)) =
      A.lift s := by
  obtain ⟨misses, ending⟩ := A
  cases ending <;> rfl

/-- An account of a rule is lifted from inside the rule. -/
theorem within_lift (rule : Rule) (A : Account rule.Result) (s : State) :
    (A.within rule s.cursor).lift s =
      recordOutcome false rule s.cursor ((A.lift (s.enter rule)).mapState State.leave) := by
  obtain ⟨misses, ending⟩ := A
  cases ending <;>
    simp [lift, within, stateAfter, recordOutcome, Outcome.mapState, State.leave, State.enter,
      State.moveTo, State.rules, Ending.stop, List.foldl_map]

theorem iterateWithin_lift {run : σ → State → Outcome (σ ⊕ α)}
    {read : σ → Cursor → Account (σ ⊕ α)}
    (h : ∀ state s, run state s = (read state s.cursor).lift s) (bound : List Char) (state : σ)
    (s : State) :
    (iterateWithin read bound state s.cursor).lift s =
      DhallSyntax.iterateWithin run bound state s := by
  induction bound generalizing state s with
  | nil =>
    rw [iterateWithin_step, h, iterateWithin, bind_lift]
    congr 1
    funext x t
    cases x with
    | inl next => exact halt_lift .stackExhausted 0 t
    | inr a => rfl
  | cons _ bound ih =>
    rw [iterateWithin_step, h, iterateWithin, bind_lift]
    congr 1
    funext x t
    cases x with
    | inl next => exact ih next t
    | inr a => rfl

end Account

/-- Whether a way to call rules does what a way to account for them says. -/
def Caller.Follows (caller : Caller) (reader : Reader) : Prop :=
  ∀ rule s, caller rule s = (reader rule s.cursor).lift s

section

variable {settings : Settings} (hd : settings.maxDepth = none)
include hd

theorem run_eq_lift {caller : Caller} {reader : Reader} (h : caller.Follows reader) {α : Type}
    (g : Grammar α) (s : State) :
    g.run settings caller s = (g.account reader s.cursor).lift s := by
  induction g generalizing s with
  | bind first next ihf ihn =>
    simp only [run_bind, Grammar.account, Account.bind_lift, ihf, ihn]
  | orElse first second ihf ihs =>
    rw [Grammar.run, Grammar.account, Account.orElse_lift, ihf]
    cases first.account reader s.cursor |>.lift s with
    | mismatch t => exact ihs _
    | _ => rfl
  | call rule => exact h rule s
  | nested body ih =>
    simp only [Grammar.run, Grammar.account, nestedWithin, Settings.admits, hd, ih, if_true]
    exact Account.lift_withDepth (body.account reader s.cursor) s
  | iterate state step ih => exact (Account.iterateWithin_lift ih _ state s).symm
  | accept literal =>
    simp only [Grammar.run, Grammar.account]
    split <;> rfl
  | abort fault back => exact (Account.halt_lift fault back s).symm
  | fail expectation =>
    simp [Grammar.run, Grammar.account, Account.lift, Account.stateAfter, State.note, Ending.stop]
  | _ => rfl

theorem callWithin_eq_lift (hm : settings.memoize = false)
    (bodies : (rule : Rule) → Grammar rule.Result) (n : Nat) :
    (callWithin bodies settings n).Follows (readWithin bodies n) := by
  induction n with
  | zero =>
    intro rule s
    exact (Account.halt_lift .stackExhausted 0 s).symm
  | succ n ih =>
    intro rule s
    rw [readWithin, Account.within_lift, callWithin, recallRule, hm, if_neg Bool.false_ne_true,
      runRule, run_eq_lift hd ih, hm]
    rfl

theorem start_eq_lift (hm : settings.memoize = false) {α : Type} (g : Grammar α) (s : State) :
    g.start settings s = (g.account (readWithin Rule.body settings.stack) s.cursor).lift s :=
  run_eq_lift hd (callWithin_eq_lift hd hm Rule.body settings.stack) g s

end

end DhallSyntax
