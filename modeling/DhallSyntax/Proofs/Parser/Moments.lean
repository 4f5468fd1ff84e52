import DhallSyntax.Proofs.Parser.Recall

/-!
The states that a run passes through. Main statement: `history_sound`, the memo is sound at every
moment of a run that begins with a sound one, also where alternatives are tried that are given up
later.
-/

namespace DhallSyntax

variable {α β σ : Type}

/-- The states that come after a value. -/
def Outcome.afterValue (r : Outcome β) (next : β → State → List State) : List State :=
  match r with
  | .value b s => next b s
  | _ => []

/-- The states that come after there was no match. -/
def Outcome.afterMismatch (r : Outcome β) (next : State → List State) : List State :=
  match r with
  | .mismatch s => next s
  | _ => []

/-- The states that a rule passes through. -/
abbrev Watcher := Rule → State → List State

/-- The states that a repetition passes through. -/
def iterateMoments (run : σ → State → Outcome (σ ⊕ α)) (moments : σ → State → List State) :
    (bound : List Char) → σ → State → List State
  | bound, state, s =>
    moments state s ++ (run state s).afterValue fun
      | .inr _, _ => []
      | .inl next, t =>
        match bound with
        | [] => []
        | _ :: bound => iterateMoments run moments bound next t

/-- The states that a part of a grammar passes through, the first and the last one included. -/
def Grammar.moments (settings : Settings) (caller : Caller) (watcher : Watcher) {α : Type} :
    Grammar α → State → List State
  | .bind first next, s =>
    first.moments settings caller watcher s ++
      (first.run settings caller s).afterValue fun b t =>
        (next b).moments settings caller watcher t
  | .orElse first second, s =>
    first.moments settings caller watcher s ++
      (first.run settings caller s).afterMismatch fun t =>
        second.moments settings caller watcher (t.moveTo s.cursor)
  | .call rule, s => watcher rule s
  | .nested body, s =>
    let inner := s.withDepth (s.depth + 1)
    [s, inner] ++
      (if settings.admits inner.depth then body.moments settings caller watcher inner else []) ++
      [(nestedWithin settings (body.run settings caller) s).state]
  | .iterate state step, s =>
    iterateMoments (fun state s => (step state).run settings caller s)
      (fun state s => (step state).moments settings caller watcher s) s.cursor.rest state s
  | g, s => [s, (g.run settings caller s).state]

/-- Whether a rule is taken from the memo. -/
def Settings.recalls (settings : Settings) (rule : Rule) (s : State) : Bool :=
  settings.memoize && (s.memo.get? (rule, s.cursor.offset)).isSome

/-- The states that rules pass through that are inside at most `stack` others. -/
def momentsWithin (bodies : (rule : Rule) → Grammar rule.Result) (settings : Settings) :
    (stack : Nat) → Watcher
  | 0, _, s => [s]
  | stack + 1, rule, s =>
    [s] ++
      (if settings.recalls rule s then []
      else
        (bodies rule).moments settings (callWithin bodies settings stack)
          (momentsWithin bodies settings stack) (s.enter rule)) ++
      [(callWithin bodies settings (stack + 1) rule s).state]

/-- The states that a run of a part of the grammar of expressions passes through. -/
def Grammar.history (settings : Settings) (g : Grammar α) (s : State) : List State :=
  g.moments settings (callWithin Rule.body settings settings.stack)
    (momentsWithin Rule.body settings settings.stack) s

/-- A rule that is in the memo is not run. -/
theorem recallRule_known {settings settings' : Settings} {rule : Rule} {s : State}
    (h : settings.recalls rule s = true) (hm : settings.memoize = settings'.memoize)
    {body body' : State → Outcome rule.Result} :
    recallRule settings' rule body' s = recallRule settings rule body s := by
  simp only [Settings.recalls, Bool.and_eq_true] at h
  obtain ⟨hmem, hk⟩ := h
  obtain ⟨entry, he⟩ := Option.isSome_iff_exists.mp hk
  rw [recallRule, recallRule, ← hm, hmem, he]
  cases entry <;> rfl

theorem recallRule_fresh {settings : Settings} {rule : Rule} {s : State}
    (h : settings.recalls rule s = false) {body : State → Outcome rule.Result} :
    recallRule settings rule body s = runRule settings rule body s := by
  rw [recallRule]
  simp only [Settings.recalls, Bool.and_eq_false_iff] at h
  obtain h | h := h
  · rw [h, if_neg Bool.false_ne_true]
  · rw [Option.isSome_eq_false_iff, Option.isNone_iff_eq_none] at h
    rw [h]
    exact ite_self _

theorem mem_afterValue {r : Outcome β} {next : β → State → List State} {t : State} :
    t ∈ r.afterValue next ↔ ∃ b u, r = .value b u ∧ t ∈ next b u := by
  cases r with
  | value b s => exact ⟨fun h => ⟨b, s, rfl, h⟩, fun ⟨_, _, h, ht⟩ => by cases h; exact ht⟩
  | _ => simp [Outcome.afterValue]

theorem mem_afterMismatch {r : Outcome β} {next : State → List State} {t : State} :
    t ∈ r.afterMismatch next ↔ ∃ u, r = .mismatch u ∧ t ∈ next u := by
  cases r with
  | mismatch s => exact ⟨fun h => ⟨s, rfl, h⟩, fun ⟨_, h, ht⟩ => by cases h; exact ht⟩
  | _ => simp [Outcome.afterMismatch]

variable {bodies : (rule : Rule) → Grammar rule.Result} {source : List Char}
  {settings : Settings} {n : Nat}

theorem iterateMoments_sound {run : σ → State → Outcome (σ ⊕ α)}
    {moments : σ → State → List State}
    (hr : ∀ state s, s.Sound bodies source → (run state s).state.Sound bodies source)
    (hm : ∀ state s, s.Sound bodies source → ∀ t ∈ moments state s, t.Sound bodies source)
    (bound : List Char) (state : σ) (s : State) (hs : s.Sound bodies source) :
    ∀ t ∈ iterateMoments run moments bound state s, t.Sound bodies source := by
  induction bound generalizing state s with
  | nil =>
    intro t ht
    rw [iterateMoments, List.mem_append, mem_afterValue] at ht
    obtain ht | ⟨x | a, u, -, ht⟩ := ht
    · exact hm state s hs t ht
    · cases ht
    · cases ht
  | cons _ bound ih =>
    intro t ht
    rw [iterateMoments, List.mem_append, mem_afterValue] at ht
    obtain ht | ⟨x | a, u, hu, ht⟩ := ht
    · exact hm state s hs t ht
    · have hu : u.Sound bodies source := by
        have := hr state s hs
        rwa [hu] at this
      exact ih x u hu t ht
    · cases ht

/-- Every moment of a part of a grammar has a sound memo if the moments of rules have. -/
theorem moments_sound {caller : Caller} {watcher : Watcher}
    (hc : ∀ rule s, s.Sound bodies source →
      Accounted bodies source settings n (fun k => readWithin bodies k rule s.cursor) s
        (caller rule s))
    (hw : ∀ rule s, s.Sound bodies source → ∀ t ∈ watcher rule s, t.Sound bodies source)
    (g : Grammar α) (s : State) (hs : s.Sound bodies source) :
    ∀ t ∈ g.moments settings caller watcher s, t.Sound bodies source := by
  have hrun : ∀ {γ : Type} (g : Grammar γ) (s : State), s.Sound bodies source →
      (g.run settings caller s).state.Sound bodies source :=
    fun g s hs => (run_accounted hc g s hs).sound
  have hends : ∀ {γ : Type} (g : Grammar γ) (s : State), s.Sound bodies source →
      ∀ t ∈ [s, (g.run settings caller s).state], t.Sound bodies source := by
    intro γ g s hs
    exact List.forall_mem_cons.mpr ⟨hs, List.forall_mem_singleton.mpr (hrun g s hs)⟩
  induction g generalizing s with
  | bind first next ihf ihn =>
    intro t ht
    rw [Grammar.moments, List.mem_append, mem_afterValue] at ht
    obtain ht | ⟨b, u, hu, ht⟩ := ht
    · exact ihf s hs t ht
    · have hs' := hrun first s hs
      rw [hu] at hs'
      exact ihn b u hs' t ht
  | orElse first second ihf ihs =>
    intro t ht
    rw [Grammar.moments, List.mem_append, mem_afterMismatch] at ht
    obtain ht | ⟨u, hu, ht⟩ := ht
    · exact ihf s hs t ht
    · have hs' := hrun first s hs
      rw [hu] at hs'
      exact ihs (u.moveTo s.cursor) (hs'.moveTo hs.place) t ht
  | call rule => exact hw rule s hs
  | nested body ih =>
    intro t ht
    have hs' := hs.withDepth (s.depth + 1)
    have hend := hrun (.nested body) s hs
    simp only [Grammar.moments, List.mem_append, List.mem_cons, List.not_mem_nil, or_false] at ht
    obtain ((rfl | rfl) | ht) | rfl := ht
    · exact hs
    · exact hs'
    · split at ht
      · exact ih _ hs' t ht
      · cases ht
    · exact hend
  | iterate state step ih =>
    exact iterateMoments_sound (fun state => hrun (step state)) ih _ state s hs
  | _ => exact hends _ s hs

theorem momentsWithin_sound (n : Nat) (rule : Rule) (s : State) (hs : s.Sound bodies source) :
    ∀ t ∈ momentsWithin bodies settings n rule s, t.Sound bodies source := by
  induction n generalizing rule s with
  | zero =>
    intro t ht
    rw [momentsWithin, List.mem_singleton] at ht
    exact ht ▸ hs
  | succ n ih =>
    intro t ht
    simp only [momentsWithin, List.mem_append, List.mem_singleton] at ht
    obtain (rfl | ht) | rfl := ht
    · exact hs
    · split at ht
      · cases ht
      · exact moments_sound (callWithin_accounted n) ih (bodies rule) (s.enter rule)
          (hs.enter rule) t ht
    · exact (callWithin_accounted (n + 1) rule s hs).sound

theorem history_sound (settings : Settings) (g : Grammar α) (s : State)
    (hs : s.Sound Rule.body source) : ∀ t ∈ g.history settings s, t.Sound Rule.body source :=
  moments_sound (callWithin_accounted settings.stack) (momentsWithin_sound settings.stack) g s hs

end DhallSyntax
