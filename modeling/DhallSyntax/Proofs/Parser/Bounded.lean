import DhallSyntax.Proofs.Parser.Moments

/-!
The bound on nested expressions. Main statement: `start_bounded`, a bounded run is the run
without a bound if that one never opens too many expressions, and goes too deep if it ever does.
-/

namespace DhallSyntax

variable {α β σ : Type}

/-- The same settings without a bound on nested expressions. -/
def Settings.unlimited (settings : Settings) : Settings := { settings with maxDepth := none }

/-- Never more than `m` expressions are open. -/
def Shallow (m : Nat) (moments : List State) : Prop := ∀ t ∈ moments, t.depth ≤ m

theorem shallow_append {m : Nat} {ms ms' : List State} :
    Shallow m (ms ++ ms') ↔ Shallow m ms ∧ Shallow m ms' := List.forall_mem_append

/-- What a bound makes of a run that passes through some states. -/
def Bounds (m : Nat) (moments : List State) (free bounded : Outcome α) : Prop :=
  Shallow m moments ∧ bounded = free ∨ ¬ Shallow m moments ∧ bounded.TooDeep

/-! ## Depth is kept -/

section

variable {settings : Settings} {caller : Caller}

theorem iterateWithin_depth {run : σ → State → Outcome (σ ⊕ α)}
    (h : ∀ state s, (run state s).state.depth = s.depth) (bound : List Char) (state : σ)
    (s : State) : (iterateWithin run bound state s).state.depth = s.depth := by
  induction bound generalizing state s with
  | nil =>
    rw [iterateWithin_step, ← h state s]
    cases run state s with
    | value x t => cases x <;> rfl
    | _ => rfl
  | cons _ bound ih =>
    rw [iterateWithin_step, ← h state s]
    cases run state s with
    | value x t =>
      cases x with
      | inl next => exact ih next t
      | inr a => rfl
    | _ => rfl

/-- Whatever is opened is closed again. -/
theorem run_depth (h : ∀ rule s, (caller rule s).state.depth = s.depth) (g : Grammar α)
    (s : State) : (g.run settings caller s).state.depth = s.depth := by
  induction g generalizing s with
  | bind first next ihf ihn =>
    rw [run_bind, ← ihf s]
    cases first.run settings caller s with
    | value b t => exact ihn b t
    | _ => rfl
  | orElse first second ihf ihs =>
    rw [Grammar.run, ← ihf s]
    cases first.run settings caller s with
    | mismatch t => exact ihs (t.moveTo s.cursor)
    | _ => rfl
  | call rule => exact h rule s
  | nested body ih =>
    have hb := ih (s.withDepth (s.depth + 1))
    simp only [Grammar.run, nestedWithin]
    split
    · cases hr : body.run settings caller (s.withDepth (s.depth + 1)) <;> rw [hr] at hb <;>
        exact congrArg (· - 1) hb
    · rfl
  | iterate state step ih => exact iterateWithin_depth ih _ state s
  | accept literal =>
    rw [Grammar.run]
    split <;> rfl
  | _ => rfl

end

theorem callWithin_depth (bodies : (rule : Rule) → Grammar rule.Result) (settings : Settings)
    (n : Nat) (rule : Rule) (s : State) :
    (callWithin bodies settings n rule s).state.depth = s.depth := by
  induction n generalizing rule s with
  | zero => rfl
  | succ n ih =>
    have hb : ((bodies rule).run settings (callWithin bodies settings n)
        (s.enter rule)).state.depth = s.depth := run_depth ih (bodies rule) (s.enter rule)
    have hr : (runRule settings rule ((bodies rule).run settings (callWithin bodies settings n))
        s).state.depth = s.depth := by
      rw [runRule]
      cases h : (bodies rule).run settings (callWithin bodies settings n) (s.enter rule) <;>
        rw [h] at hb <;> cases settings.memoize <;> exact hb
    rw [callWithin, recallRule]
    split
    · split
      · rfl
      · rfl
      · exact hr
    · exact hr

/-! ## Bounded runs -/

namespace Bounds

variable {m : Nat} {moments : List State}

theorem refl {r : Outcome α} (h : Shallow m moments) : Bounds m moments r r := .inl ⟨h, rfl⟩

theorem bind {r r' : Outcome β} {later : β → State → List State} {f f' : β → State → Outcome α}
    (h : Bounds m moments r r')
    (hf : ∀ b t, r = .value b t → Bounds m (later b t) (f b t) (f' b t)) :
    Bounds m (moments ++ r.afterValue later) (r.andThen f) (r'.andThen f') := by
  obtain ⟨hm, rfl⟩ | ⟨hm, limit, a, t, rfl, ha⟩ := h
  · cases r' with
    | value b t =>
      obtain ⟨hl, hr⟩ | ⟨hl, hr⟩ := hf b t rfl
      · exact .inl ⟨shallow_append.mpr ⟨hm, hl⟩, hr⟩
      · exact .inr ⟨fun hs => hl (shallow_append.mp hs).2, hr⟩
    | _ => exact .inl ⟨by simpa [Outcome.afterValue] using hm, rfl⟩
  · exact .inr ⟨fun hs => hm (shallow_append.mp hs).1, limit, a, t, rfl, ha⟩

theorem orElse {r r' : Outcome α} {start : Cursor} {later : State → List State}
    {f f' : State → Outcome α} (h : Bounds m moments r r')
    (hf : ∀ t, r = .mismatch t → Bounds m (later t) (f (t.moveTo start)) (f' (t.moveTo start))) :
    Bounds m (moments ++ r.afterMismatch later) (.orRetry start f r) (.orRetry start f' r') := by
  obtain ⟨hm, rfl⟩ | ⟨hm, limit, a, t, rfl, ha⟩ := h
  · cases r' with
    | mismatch t =>
      obtain ⟨hl, hr⟩ | ⟨hl, hr⟩ := hf t rfl
      · exact .inl ⟨shallow_append.mpr ⟨hm, hl⟩, hr⟩
      · exact .inr ⟨fun hs => hl (shallow_append.mp hs).2, hr⟩
    | _ => exact .inl ⟨by simpa [Outcome.afterMismatch] using hm, rfl⟩
  · exact .inr ⟨fun hs => hm (shallow_append.mp hs).1, limit, a, t, rfl, ha⟩

theorem iterate {run run' : σ → State → Outcome (σ ⊕ α)} {during : σ → State → List State}
    (hd : ∀ state s, (run state s).state.depth = s.depth)
    (h : ∀ state s, s.depth ≤ m → Bounds m (during state s) (run state s) (run' state s))
    (bound : List Char) (state : σ) (s : State) (hs : s.depth ≤ m) :
    Bounds m (iterateMoments run during bound state s) (iterateWithin run bound state s)
      (iterateWithin run' bound state s) := by
  induction bound generalizing state s with
  | nil =>
    rw [iterateWithin_step, iterateWithin_step, iterateMoments]
    refine (h state s hs).bind fun x t _ => ?_
    cases x <;> exact .refl (List.forall_mem_nil _)
  | cons _ bound ih =>
    rw [iterateWithin_step, iterateWithin_step, iterateMoments]
    refine (h state s hs).bind fun x t hx => ?_
    cases x with
    | inl next =>
      have ht := hd state s
      rw [hx] at ht
      exact ih next t (ht.symm ▸ hs)
    | inr a => exact .refl (List.forall_mem_nil _)

theorem mapState {r r' : Outcome α} (h : Bounds m moments r r') (f : State → State) :
    Bounds m moments (r.mapState f) (r'.mapState f) := by
  obtain ⟨hm, rfl⟩ | ⟨hm, limit, a, t, rfl, ha⟩ := h
  · exact .inl ⟨hm, rfl⟩
  · exact .inr ⟨hm, limit, a, f t, rfl, ha⟩

theorem record {rule : Rule} {r r' : Outcome rule.Result} (h : Bounds m moments r r')
    (memoize : Bool) (start : Cursor) :
    Bounds m moments (recordOutcome memoize rule start r)
      (recordOutcome memoize rule start r') := by
  obtain ⟨hm, rfl⟩ | ⟨hm, limit, a, t, rfl, ha⟩ := h
  · exact .inl ⟨hm, rfl⟩
  · exact .inr ⟨hm, limit, a, t, rfl, ha⟩

/-- States that are not too deep do not matter. -/
theorem extend {r r' : Outcome α} {before after : List State} (h : Bounds m moments r r')
    (hb : Shallow m before) (ha : Shallow m after) :
    Bounds m (before ++ moments ++ after) r r' := by
  obtain ⟨hm, rfl⟩ | ⟨hm, hr⟩ := h
  · exact .inl ⟨shallow_append.mpr ⟨shallow_append.mpr ⟨hb, hm⟩, ha⟩, rfl⟩
  · exact .inr ⟨fun hs => hm (shallow_append.mp (shallow_append.mp hs).1).2, hr⟩

end Bounds

section

variable {settings : Settings} {m : Nat} (hm : settings.maxDepth = some m)
include hm

theorem run_bounded {caller caller' : Caller} {watcher : Watcher}
    (hd : ∀ rule s, (caller rule s).state.depth = s.depth)
    (h : ∀ rule s, s.depth ≤ m → Bounds m (watcher rule s) (caller rule s) (caller' rule s))
    (g : Grammar α) (s : State) (hs : s.depth ≤ m) :
    Bounds m (g.moments settings.unlimited caller watcher s)
      (g.run settings.unlimited caller s) (g.run settings caller' s) := by
  have hkeep : ∀ {γ : Type} (g : Grammar γ) (s : State),
      (g.run settings.unlimited caller s).state.depth = s.depth := run_depth hd
  have hends : ∀ {γ : Type} (g : Grammar γ) (s : State), s.depth ≤ m →
      Shallow m [s, (g.run settings.unlimited caller s).state] := by
    intro γ g s hs
    have hend : (g.run settings.unlimited caller s).state.depth ≤ m := (hkeep g s).symm ▸ hs
    exact List.forall_mem_cons.mpr ⟨hs, List.forall_mem_singleton.mpr hend⟩
  induction g generalizing s with
  | bind first next ihf ihn =>
    rw [run_bind, run_bind, Grammar.moments]
    refine (ihf s hs).bind fun b t ht => ?_
    have hb := hkeep first s
    rw [ht] at hb
    exact ihn b t (hb.symm ▸ hs)
  | orElse first second ihf ihs =>
    rw [Grammar.run, Grammar.run, Grammar.moments]
    refine (ihf s hs).orElse fun t ht => ?_
    have hb := hkeep first s
    rw [ht] at hb
    exact ihs (t.moveTo s.cursor) (hb.symm ▸ hs)
  | call rule => exact h rule s hs
  | nested body ih =>
    have hend := hkeep (.nested body) s
    by_cases hi : s.depth + 1 ≤ m
    · have hfree : nestedWithin settings.unlimited
          (body.run settings.unlimited caller) s =
            (body.run settings.unlimited caller (s.withDepth (s.depth + 1))).mapState
              fun t => t.withDepth (t.depth - 1) := rfl
      have hbound : nestedWithin settings (body.run settings caller') s =
          (body.run settings caller' (s.withDepth (s.depth + 1))).mapState
            fun t => t.withDepth (t.depth - 1) := by
        simp only [nestedWithin, Settings.admits, hm]
        exact if_pos (decide_eq_true hi)
      rw [Grammar.run, Grammar.run, hfree, hbound]
      have hbefore : Shallow m [s, s.withDepth (s.depth + 1)] :=
        List.forall_mem_cons.mpr ⟨hs, List.forall_mem_singleton.mpr hi⟩
      refine ((ih _ hi).mapState _).extend hbefore (List.forall_mem_singleton.mpr ?_)
      exact hend.symm ▸ hs
    · refine .inr ⟨fun hsh => hi ?_, m, ?_⟩
      · exact hsh (s.withDepth (s.depth + 1)) (by simp [Grammar.moments])
      · have hbound : nestedWithin settings (body.run settings caller') s =
            ((s.withDepth (s.depth + 1)).abort (.defect (.tooDeep m)) 0).mapState
              fun t => t.withDepth (t.depth - 1) := by
          simp only [nestedWithin, Settings.admits, hm]
          exact if_neg fun h => hi (of_decide_eq_true h)
        rw [Grammar.run, hbound]
        exact ⟨_, _, rfl, rfl⟩
  | iterate state step ih =>
    exact Bounds.iterate (fun state => hkeep (step state)) ih _ state s hs
  | accept literal => exact .refl (hends _ s hs)
  | _ => exact .refl (hends _ s hs)

theorem callWithin_bounded (bodies : (rule : Rule) → Grammar rule.Result) (n : Nat) (rule : Rule)
    (s : State) (hs : s.depth ≤ m) :
    Bounds m (momentsWithin bodies settings.unlimited n rule s)
      (callWithin bodies settings.unlimited n rule s) (callWithin bodies settings n rule s) := by
  induction n generalizing rule s with
  | zero => exact .refl (List.forall_mem_singleton.mpr hs)
  | succ n ih =>
    have hend := callWithin_depth bodies settings.unlimited (n + 1) rule s
    have hbody := run_bounded hm (callWithin_depth bodies settings.unlimited n) ih (bodies rule)
      (s.enter rule) hs
    rw [momentsWithin]
    refine Bounds.extend ?_ (List.forall_mem_singleton.mpr hs)
      (List.forall_mem_singleton.mpr (hend.symm ▸ hs))
    · cases hr : settings.recalls rule s with
      | true =>
        have hr' : settings.unlimited.recalls rule s = true := hr
        rw [if_pos hr', callWithin, callWithin, recallRule_known hr rfl]
        exact .refl (List.forall_mem_nil _)
      | false =>
        have hr' : settings.unlimited.recalls rule s = false := hr
        rw [hr', if_neg Bool.false_ne_true, callWithin, callWithin, recallRule_fresh hr,
          recallRule_fresh hr']
        exact (hbody.mapState State.leave).record _ s.cursor

/-- A bounded run of a part of the grammar of expressions either is the unlimited one or goes too
deep, as the moments of the unlimited one tell. -/
theorem start_bounded (g : Grammar α) (s : State) (hs : s.depth ≤ m) :
    Bounds m (g.history settings.unlimited s) (g.start settings.unlimited s)
      (g.start settings s) :=
  run_bounded hm (callWithin_depth Rule.body settings.unlimited settings.stack)
    (callWithin_bounded hm Rule.body settings.stack) g s hs

end

end DhallSyntax
