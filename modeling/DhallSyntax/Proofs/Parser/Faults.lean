import DhallSyntax.Proofs.Grammar.Faults
import DhallSyntax.Proofs.Parser.Unbounded

/-!
The faults that can end a parse. Main statement: `start_faults`, they are faults of the text, too
little stack, and expressions beyond the bound that is set.
-/

namespace DhallSyntax

variable {α β σ : Type} {settings : Settings}

/-- The faults that can end a parse with the given settings. -/
def Settings.Permits (settings : Settings) (fault : Fault) : Prop :=
  fault.isTextual = true ∨ fault = .stackExhausted ∨
    ∃ m, settings.maxDepth = some m ∧ fault = .defect (.tooDeep m)

/-- If an outcome ends the parse, the fault has a property. -/
def Outcome.AbortsOnly (P : Fault → Prop) (r : Outcome α) : Prop :=
  ∀ a s, r = .abort a s → P a.fault

namespace Outcome.AbortsOnly

variable {P : Fault → Prop}

theorem andThen {r : Outcome β} {f : β → State → Outcome α} (h : r.AbortsOnly P)
    (hf : ∀ b s, (f b s).AbortsOnly P) : (r.andThen f).AbortsOnly P := by
  intro a s he
  cases r with
  | value b t => exact hf b t a s he
  | mismatch t => cases he
  | abort a' t =>
    cases he
    exact h a s rfl

theorem orRetry {r : Outcome α} {start : Cursor} {f : State → Outcome α} (h : r.AbortsOnly P)
    (hf : ∀ s, (f s).AbortsOnly P) : (Outcome.orRetry start f r).AbortsOnly P := by
  intro a s he
  cases r with
  | value b t => cases he
  | mismatch t => exact hf _ a s he
  | abort a' t =>
    cases he
    exact h a s rfl

theorem mapState {r : Outcome α} (h : r.AbortsOnly P) (f : State → State) :
    (r.mapState f).AbortsOnly P := by
  intro a s he
  cases r <;> cases he
  exact h a _ rfl

theorem abort {fault : Fault} (h : P fault) (s : State) (back : Nat) :
    (s.abort (α := α) fault back).AbortsOnly P := by
  intro a t he
  cases he
  exact h

theorem iterateWithin {run : σ → State → Outcome (σ ⊕ α)} (hx : P .stackExhausted)
    (h : ∀ state s, (run state s).AbortsOnly P) (bound : List Char) (state : σ) (s : State) :
    (DhallSyntax.iterateWithin run bound state s).AbortsOnly P := by
  induction bound generalizing state s with
  | nil =>
    rw [iterateWithin_step]
    refine (h state s).andThen fun x t => ?_
    cases x with
    | inl next => exact abort hx t 0
    | inr a => exact fun _ _ he => nomatch he
  | cons _ bound ih =>
    rw [iterateWithin_step]
    refine (h state s).andThen fun x t => ?_
    cases x with
    | inl next => exact ih next t
    | inr a => exact fun _ _ he => nomatch he

end Outcome.AbortsOnly

/-- A part of a grammar reports its own faults, those of the rules it calls, and what the run
itself may report. -/
theorem run_faults {caller : Caller} (hc : ∀ rule s, (caller rule s).AbortsOnly settings.Permits)
    (g : Grammar α) (hg : g.AbortsOnly fun fault => fault.isTextual = true) (s : State) :
    (g.run settings caller s).AbortsOnly settings.Permits := by
  induction g generalizing s with
  | bind first next ihf ihn =>
    rw [run_bind]
    exact (ihf hg.1 s).andThen fun b t => ihn b (hg.2 b) t
  | orElse first second ihf ihs => exact (ihf hg.1 s).orRetry fun t => ihs hg.2 t
  | call rule => exact hc rule s
  | nested body ih =>
    rw [Grammar.run, nestedWithin]
    split
    · exact (ih hg.2 _).mapState _
    · rename_i hd
      cases hm : settings.maxDepth with
      | none => simp [Settings.admits, hm] at hd
      | some m => exact (Outcome.AbortsOnly.abort (.inr (.inr ⟨m, hm, rfl⟩)) _ 0).mapState _
  | iterate state step ih =>
    exact .iterateWithin (.inr (.inl rfl)) (fun state s => ih state (hg state) s) _ state s
  | abort fault back => exact .abort (.inl (hg fault rfl)) s back
  | accept literal =>
    rw [Grammar.run]
    split <;> exact fun _ _ he => by cases he
  | _ => exact fun _ _ he => by cases he

theorem callWithin_faults {bodies : (rule : Rule) → Grammar rule.Result}
    (hb : ∀ rule, (bodies rule).AbortsOnly fun fault => fault.isTextual = true) (n : Nat)
    (rule : Rule) (s : State) :
    (callWithin bodies settings n rule s).AbortsOnly settings.Permits := by
  induction n generalizing rule s with
  | zero => exact .abort (.inr (.inl rfl)) s 0
  | succ n ih =>
    have hr : (runRule settings rule ((bodies rule).run settings (callWithin bodies settings n))
        s).AbortsOnly settings.Permits := by
      intro a t he
      have h := (run_faults ih (bodies rule) (hb rule) (s.enter rule)).mapState State.leave
      rw [runRule] at he
      cases hq : ((bodies rule).run settings (callWithin bodies settings n)
        (s.enter rule)).mapState State.leave <;> rw [hq] at he <;> cases he
      exact h a _ hq
    rw [callWithin, recallRule]
    split
    · split
      · exact fun _ _ he => by cases he
      · exact fun _ _ he => by cases he
      · exact hr
    · exact hr

theorem start_faults (g : Grammar α) (hg : g.AbortsOnly fun fault => fault.isTextual = true)
    (s : State) : (g.start settings s).AbortsOnly settings.Permits :=
  run_faults (callWithin_faults body_abortsOnly settings.stack) g hg s

end DhallSyntax
