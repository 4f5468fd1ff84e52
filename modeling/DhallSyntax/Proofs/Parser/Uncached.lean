import DhallSyntax.Proofs.Parser.Bounded

/-!
A run with a memo beside one without, neither of them bounded. Main statement:
`history_opens`, the run with a memo never has a number of expressions open that the other
does not have open at some time.
-/

namespace DhallSyntax

variable {α β σ : Type} {bodies : (rule : Rule) → Grammar rule.Result} {source : List Char}
  {settings plain : Settings} {n : Nat}

/-- Every number of open expressions in the first states occurs in the others. -/
def Opens (moments others : List State) : Prop :=
  moments.map State.depth ⊆ others.map State.depth

namespace Opens

variable {ms ms' ns ns' : List State}

theorem append (h : Opens ms ns) (h' : Opens ms' ns') : Opens (ms ++ ms') (ns ++ ns') := by
  rw [Opens, List.map_append, List.map_append]
  exact List.append_subset.mpr ⟨List.subset_append_of_subset_left _ h,
    List.subset_append_of_subset_right _ h'⟩

/-- States that keep the number of open expressions add none. -/
theorem of_depth {s : State} (h : ∀ t ∈ ms, t.depth = s.depth) (hs : s.depth ∈ ns.map State.depth) :
    Opens ms ns := by
  intro d hd
  obtain ⟨t, ht, rfl⟩ := List.mem_map.mp hd
  exact h t ht ▸ hs

theorem afterValue {r r' : Outcome β} (hr : r'.Alike r) {later later' : β → State → List State}
    (h : ∀ b t t', r = .value b t → t'.Alike t → Opens (later b t) (later' b t')) :
    Opens (r.afterValue later) (r'.afterValue later') := by
  cases r with
  | value b t =>
    cases r' with
    | value b' t' =>
      obtain ⟨rfl, ht⟩ := hr
      exact h b' t t' rfl ht
    | _ => cases hr
  | _ => exact List.nil_subset _

theorem afterMismatch {r r' : Outcome β} (hr : r'.Alike r) {later later' : State → List State}
    (h : ∀ t t', r = .mismatch t → t'.Alike t → Opens (later t) (later' t')) :
    Opens (r.afterMismatch later) (r'.afterMismatch later') := by
  cases r with
  | mismatch t =>
    cases r' with
    | mismatch t' => exact h t t' rfl hr
    | _ => cases hr
  | _ => exact List.nil_subset _

end Opens

theorem Shallow.opens {m : Nat} {ms ns : List State} (h : Shallow m ns) (ho : Opens ms ns) :
    Shallow m ms := by
  intro t ht
  obtain ⟨u, hu, htu⟩ := List.mem_map.mp (ho (List.mem_map_of_mem ht))
  exact htu ▸ h u hu

/-- Without a bound a run with enough stack does what its account says. -/
theorem Accounted.alike {acc : Nat → Account α} {s : State} {r : Outcome α}
    (h : Accounted bodies source settings n acc s r) (hd : settings.maxDepth = none)
    (hg : Growing acc) (hx : ¬ (acc n).Exhausted) : ((acc n).lift s).Alike r := by
  obtain ⟨-, ⟨hm, -⟩ | ⟨-, he⟩ | ⟨k, hk, -, hr⟩⟩ := h
  · exact absurd hd hm
  · exact absurd he hx
  · rwa [hg.eq hk hx] at hr

theorem iterateMoments_opens {run run' : σ → State → Outcome (σ ⊕ α)}
    {during during' : σ → State → List State} {read : σ → Cursor → Account (σ ⊕ α)}
    (hr : ∀ state s, s.Sound bodies source → (run state s).state.Sound bodies source)
    (hl : ∀ state s, s.Sound bodies source → ¬ (read state s.cursor).Exhausted →
      ((read state s.cursor).lift s).Alike (run state s))
    (hp : ∀ state s, run' state s = (read state s.cursor).lift s)
    (h : ∀ state s s', s.Sound bodies source → s'.Alike s → ¬ (read state s.cursor).Exhausted →
      Opens (during state s) (during' state s'))
    (bound : List Char) (state : σ) (s s' : State) (hs : s.Sound bodies source)
    (ht : s'.Alike s) (hx : ¬ (Account.iterateWithin read bound state s.cursor).Exhausted) :
    Opens (iterateMoments run during bound state s)
      (iterateMoments run' during' bound state s') := by
  induction bound generalizing state s s' with
  | nil =>
    rw [Account.iterateWithin] at hx
    have hx' : ¬ (read state s.cursor).Exhausted := fun he => hx (he.bind _)
    rw [iterateMoments, iterateMoments]
    refine (h state s s' hs ht hx').append (.afterValue ?_ fun x _ _ _ _ => ?_)
    · rw [hp, ht.cursor]
      exact (Account.lift_alike _ ht).trans (hl state s hs hx')
    · cases x <;> exact List.nil_subset _
  | cons _ bound ih =>
    rw [Account.iterateWithin] at hx
    have hx' : ¬ (read state s.cursor).Exhausted := fun he => hx (he.bind _)
    have hrun := hl state s hs hx'
    rw [iterateMoments, iterateMoments]
    refine (h state s s' hs ht hx').append (.afterValue ?_ fun x t t' hv ht' => ?_)
    · rw [hp, ht.cursor]
      exact (Account.lift_alike _ ht).trans hrun
    · cases x with
      | inr a => exact List.nil_subset _
      | inl next =>
        have hs' := hr state s hs
        rw [hv] at hs' hrun
        refine ih next t t' hs' ht' fun he => hx ?_
        exact .bind_value (Account.alike_value hrun).1 he

section

variable (hd : settings.maxDepth = none) (hd' : plain.maxDepth = none)
include hd hd'

theorem moments_opens {caller caller' : Caller} {watcher watcher' : Watcher}
    (hc : ∀ rule s, s.Sound bodies source →
      Accounted bodies source settings n (fun k => readWithin bodies k rule s.cursor) s
        (caller rule s))
    (hf : caller'.Follows (readWithin bodies n))
    (hdepth : ∀ rule s, (caller rule s).state.depth = s.depth)
    (h : ∀ rule s s', s.Sound bodies source → s'.Alike s →
      ¬ (readWithin bodies n rule s.cursor).Exhausted →
      Opens (watcher rule s) (watcher' rule s'))
    (g : Grammar α) (s s' : State) (hs : s.Sound bodies source) (ht : s'.Alike s)
    (hx : ¬ (g.account (readWithin bodies n) s.cursor).Exhausted) :
    Opens (g.moments settings caller watcher s) (g.moments plain caller' watcher' s') := by
  have hsound : ∀ {γ : Type} (g : Grammar γ) (s : State), s.Sound bodies source →
      (g.run settings caller s).state.Sound bodies source :=
    fun g s hs => (run_accounted hc g s hs).sound
  have hlift : ∀ {γ : Type} (g : Grammar γ) (s : State), s.Sound bodies source →
      ¬ (g.account (readWithin bodies n) s.cursor).Exhausted →
      ((g.account (readWithin bodies n) s.cursor).lift s).Alike (g.run settings caller s) :=
    fun g s hs hx => (run_accounted hc g s hs).alike hd (growing_account bodies g s.cursor) hx
  have halike : ∀ {γ : Type} (g : Grammar γ) (s s' : State), s.Sound bodies source →
      s'.Alike s → ¬ (g.account (readWithin bodies n) s.cursor).Exhausted →
      (g.run plain caller' s').Alike (g.run settings caller s) := by
    intro γ g s s' hs ht hx
    rw [run_eq_lift hd' hf, ht.cursor]
    exact (Account.lift_alike _ ht).trans (hlift g s hs hx)
  have hends : ∀ {γ : Type} (g : Grammar γ) (s s' : State), s'.Alike s →
      Opens [s, (g.run settings caller s).state] [s', (g.run plain caller' s').state] := by
    intro γ g s s' ht
    refine .of_depth (s := s) (List.forall_mem_cons.mpr ⟨rfl, ?_⟩) (by simp [ht.depth])
    exact List.forall_mem_singleton.mpr (run_depth hdepth g s)
  induction g generalizing s s' with
  | bind first next ihf ihn =>
    rw [Grammar.account] at hx
    have hx' : ¬ (first.account (readWithin bodies n) s.cursor).Exhausted :=
      fun he => hx (he.bind _)
    have hrun := hlift first s hs hx'
    refine (ihf s s' hs ht hx').append (.afterValue (halike first s s' hs ht hx')
      fun b t t' hv ht' => ?_)
    have hs' := hsound first s hs
    rw [hv] at hs' hrun
    refine ihn b t t' hs' ht' fun he => hx ?_
    exact .bind_value (Account.alike_value hrun).1 he
  | orElse first second ihf ihs =>
    rw [Grammar.account] at hx
    have hx' : ¬ (first.account (readWithin bodies n) s.cursor).Exhausted :=
      fun he => hx (he.orElse _)
    have hrun := hlift first s hs hx'
    refine (ihf s s' hs ht hx').append (.afterMismatch (halike first s s' hs ht hx')
      fun t t' hv ht' => ?_)
    have hs' := hsound first s hs
    rw [hv] at hs' hrun
    refine ihs _ _ (hs'.moveTo hs.place) ⟨ht.cursor, ht'.depth, ht'.active, ht'.report⟩
      fun he => hx ?_
    exact .orElse_mismatch (Account.alike_mismatch hrun).1 he
  | call rule => exact h rule s s' hs ht hx
  | nested body ih =>
    have hin : (s'.withDepth (s'.depth + 1)).Alike (s.withDepth (s.depth + 1)) :=
      ⟨ht.cursor, by simp [State.withDepth, ht.depth], ht.active, ht.report⟩
    have hadmits : settings.admits (s.withDepth (s.depth + 1)).depth = true := by
      simp [Settings.admits, hd]
    have hadmits' : plain.admits (s'.withDepth (s'.depth + 1)).depth = true := by
      simp [Settings.admits, hd']
    simp only [Grammar.moments, hadmits, hadmits', if_true]
    refine .append (.append ?_ (ih _ _ (hs.withDepth _) hin hx)) ?_
    · simp [Opens, State.withDepth, ht.depth]
    · have hend : (Grammar.run settings caller (.nested body) s).state.depth = s.depth :=
        run_depth hdepth (.nested body) s
      have hend' : (Grammar.run plain caller' (.nested body) s').state.depth = s'.depth := by
        rw [run_eq_lift hd' hf, Account.lift_state]
        rfl
      refine .of_depth (s := s) (List.forall_mem_singleton.mpr hend) ?_
      rw [List.map_singleton, List.mem_singleton, ← ht.depth]
      exact hend'.symm
  | iterate state step ih =>
    rw [Grammar.moments, Grammar.moments, ht.cursor]
    exact iterateMoments_opens (fun state => hsound (step state)) (fun state => hlift (step state))
      (fun state => run_eq_lift hd' hf (step state)) ih _ state s s' hs ht hx
  | _ => exact hends _ s s' ht

/-- A rule with a memo opens what it opens without one, if there is enough stack for that. -/
theorem momentsWithin_opens (hm : plain.memoize = false) (n : Nat) (rule : Rule) (s s' : State)
    (hs : s.Sound bodies source) (ht : s'.Alike s)
    (hx : ¬ (readWithin bodies n rule s.cursor).Exhausted) :
    Opens (momentsWithin bodies settings n rule s) (momentsWithin bodies plain n rule s') := by
  induction n generalizing rule s s' with
  | zero => simp [Opens, momentsWithin, ht.depth]
  | succ n ih =>
    have hbody := moments_opens hd hd' (callWithin_accounted n) (callWithin_eq_lift hd' hm bodies n)
      (callWithin_depth bodies settings n) ih (bodies rule) (s.enter rule) (s'.enter rule)
      (hs.enter rule) ⟨ht.cursor, ht.depth, congrArg (rule :: ·) ht.active, ht.report⟩
      fun he => hx (Account.within_exhausted.mpr he)
    have hrun : plain.recalls rule s' = false := by simp [Settings.recalls, hm]
    rw [momentsWithin, momentsWithin, hrun, if_neg Bool.false_ne_true]
    refine .append (.append ?_ ?_) ?_
    · simp [Opens, ht.depth]
    · split
      · exact List.nil_subset _
      · exact hbody
    · simp [Opens, callWithin_depth, ht.depth]

/-- With a memo a part of the grammar opens what it opens without one. -/
theorem history_opens (hm : plain.memoize = false) (hstack : plain.stack = settings.stack)
    (g : Grammar α) (s : State) (hs : s.Sound Rule.body source)
    (hx : ¬ (g.account (readWithin Rule.body settings.stack) s.cursor).Exhausted) :
    Opens (g.history settings s) (g.history plain s) := by
  rw [Grammar.history, Grammar.history, hstack]
  exact moments_opens hd hd' (callWithin_accounted settings.stack)
    (callWithin_eq_lift hd' hm Rule.body settings.stack)
    (callWithin_depth Rule.body settings settings.stack)
    (momentsWithin_opens hd hd' hm settings.stack) g s s hs (.refl s) hx

end

end DhallSyntax
