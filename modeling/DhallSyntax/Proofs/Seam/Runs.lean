import DhallSyntax.Proofs.Context.Keys
import DhallSyntax.Proofs.Seam.Rules

/-!
Two runs along a seam. Where a part is read in the same way with either end of a text, a run with
the second end does what a run with the first one does, rule by rule: it opens as many expressions,
and recalls the same rules, since the memos know the same in front of the seam. Main statement:
`Seam.Same.run_now`.
-/

namespace DhallSyntax

variable {α β σ : Type} {settings settings' : Settings} {n n' : Nat}

/-! ## What a run does that does not end the parse -/

section Ends

variable {source : List Char} {s : State} {g : Grammar α}

theorem run_of_value (hs : s.In source) {a : α} {u : List Char}
    (h : g.read s.cursor.rest = .value a u)
    (hr : ¬ (g.run settings (callWithin Rule.body settings n) s).IsAbort) :
    ∃ t, g.run settings (callWithin Rule.body settings n) s = .value a t ∧ t.In source ∧
      t.cursor.rest = u := by
  cases hrun : g.run settings (callWithin Rule.body settings n) s with
  | value b t =>
    obtain ⟨hread, ht⟩ := run_value hs hrun
    obtain ⟨rfl, rfl⟩ := Reading.value.inj (h.symm.trans hread)
    exact ⟨t, rfl, ht, rfl⟩
  | mismatch t => cases h.symm.trans (run_mismatch hs hrun).1
  | abort a t =>
    rw [hrun] at hr
    exact absurd trivial hr

theorem run_of_mismatch (hs : s.In source) (h : g.read s.cursor.rest = .mismatch)
    (hr : ¬ (g.run settings (callWithin Rule.body settings n) s).IsAbort) :
    ∃ t, g.run settings (callWithin Rule.body settings n) s = .mismatch t := by
  cases hrun : g.run settings (callWithin Rule.body settings n) s with
  | value b t => cases h.symm.trans (run_value hs hrun).1
  | mismatch t => exact ⟨t, rfl⟩
  | abort a t =>
    rw [hrun] at hr
    exact absurd trivial hr

theorem run_nested_of_admits {s : State} {g : Grammar α}
    (h : settings.admits (s.depth + 1) = true) :
    (Grammar.nested g).run settings (callWithin Rule.body settings n) s =
      (g.run settings (callWithin Rule.body settings n) (s.withDepth (s.depth + 1))).mapState
        fun t => t.withDepth (t.depth - 1) := by
  simp only [Grammar.run, nestedWithin]
  exact if_pos h

theorem run_nested_of_refuses {s : State} {g : Grammar α}
    (h : ¬ settings.admits (s.depth + 1) = true) :
    ((Grammar.nested g).run settings (callWithin Rule.body settings n) s).IsAbort := by
  rw [Grammar.run, nestedWithin]
  exact (if_neg h).symm ▸ trivial

/-- A run that does not end the parse makes of the text what it reads as, if that is so unless
there is a defect. -/
theorem read_of_below (hs : s.In source) {q : Reading α} {bad : Fault → Prop}
    (h : (g.read s.cursor.rest).Below bad q)
    (hr : ¬ (g.run settings (callWithin Rule.body settings n) s).IsAbort) :
    g.read s.cursor.rest = q := by
  obtain ⟨fault, -, he⟩ | he := h.abort_or_eq
  · cases hrun : g.run settings (callWithin Rule.body settings n) s with
    | value b t => cases he.symm.trans (run_value hs hrun).1
    | mismatch t => cases he.symm.trans (run_mismatch hs hrun).1
    | abort a t =>
      rw [hrun] at hr
      exact absurd trivial hr
  · exact he.symm

end Ends

namespace Seam

variable {T : Seam} {outer whole : List Char} {deeper : Nat} {x y : List Char}

/-- The memo of the second run knows in front of the seam what that of the first one knows. -/
def SameKeys (outer whole : List Char) (memo memo' : Memo) : Prop :=
  ∀ rule offset, offset < whole.length →
    Memo.knows memo' rule (outer.length + offset) = Memo.knows memo rule offset

/-- Two runs are at the same place of a text in front of the seam. The second one has some more text
before it, and some more expressions open around it. -/
structure Abreast (T : Seam) (outer whole : List Char) (deeper : Nat) (x : List Char)
    (s t : State) : Prop where
  was : s.In (T.was whole)
  now : t.In (outer ++ T.now whole)
  wasRest : s.cursor.rest = T.was x
  nowRest : t.cursor.rest = T.now x
  depth : t.depth = s.depth + deeper
  keys : SameKeys outer whole s.memo t.memo

namespace Abreast

variable {s t : State}

theorem offset_was (h : T.Abreast outer whole deeper x s t) :
    s.cursor.offset + x.length = whole.length := by
  have hadd := h.was.offset_add
  rw [h.wasRest] at hadd
  simp only [Seam.was, List.length_append] at hadd
  omega

theorem offset_now (h : T.Abreast outer whole deeper x s t) :
    t.cursor.offset + x.length = outer.length + whole.length := by
  have hadd := h.now.offset_add
  rw [h.nowRest] at hadd
  simp only [Seam.now, List.length_append] at hadd
  omega

theorem offset_eq (h : T.Abreast outer whole deeper x s t) :
    t.cursor.offset = outer.length + s.cursor.offset := by
  have hwas := h.offset_was
  have hnow := h.offset_now
  omega

theorem recalls (h : T.Abreast outer whole deeper x s t) (hx : x ≠ [])
    (hm : settings'.memoize = settings.memoize) (rule : Rule) :
    settings'.recalls rule t = settings.recalls rule s := by
  have hlength := List.length_pos_iff.mpr hx
  have hwas := h.offset_was
  rw [Settings.recalls_eq, Settings.recalls_eq, hm, h.offset_eq,
    h.keys rule s.cursor.offset (by omega)]

theorem enter (h : T.Abreast outer whole deeper x s t) (rule : Rule) :
    T.Abreast outer whole deeper x (s.enter rule) (t.enter rule) :=
  ⟨h.was.enter rule, h.now.enter rule, h.wasRest, h.nowRest, h.depth, h.keys⟩

theorem deepen (h : T.Abreast outer whole deeper x s t) :
    T.Abreast outer whole deeper x (s.withDepth (s.depth + 1)) (t.withDepth (t.depth + 1)) :=
  ⟨h.was.withDepth _, h.now.withDepth _, h.wasRest, h.nowRest,
    by simp only [State.withDepth, h.depth]; omega, h.keys⟩

end Abreast

/-- The second run ends like the first one, at the same place of the text. -/
inductive Lockstep (T : Seam) (outer whole : List Char) (deeper : Nat) :
    Place α → Outcome α → Outcome α → Prop where
  | value {a : α} {y : List Char} {s t : State} : T.Abreast outer whole deeper y s t →
      Lockstep T outer whole deeper (some (a, y)) (.value a s) (.value a t)
  | mismatch {s t : State} : SameKeys outer whole s.memo t.memo →
      Lockstep T outer whole deeper none (.mismatch s) (.mismatch t)

theorem lockstep_orRetry {q q' : Outcome α} {a : α} {y : List Char} {start start' : Cursor}
    {g g' : State → Outcome α} (h : T.Lockstep outer whole deeper (some (a, y)) q q') :
    T.Lockstep outer whole deeper (some (a, y)) (Outcome.orRetry start g q)
      (Outcome.orRetry start' g' q') := by
  cases h with
  | value habreast => exact .value habreast

theorem Lockstep.not_isAbort {q q' : Outcome α} {r : Place α}
    (h : T.Lockstep outer whole deeper r q q') : ¬ q'.IsAbort := by
  cases h <;> exact id

theorem Lockstep.keys {q q' : Outcome α} {r : Place α}
    (h : T.Lockstep outer whole deeper r q q') : SameKeys outer whole q.state.memo q'.state.memo := by
  cases h with
  | value habreast => exact habreast.keys
  | mismatch hkeys => exact hkeys

theorem memo_withDepth (r : Outcome α) :
    (r.mapState fun t => t.withDepth (t.depth - 1)).state.memo = r.state.memo := by
  cases r <;> rfl

/-- Nothing is opened by what only looks at the second end. -/
theorem keeps_anything (settings : Settings) (source : List Char) :
    Surroundings.Keeps .bare settings source fun _ => True where
  admits := by
    intro depth hd
    obtain rfl := Nat.le_zero.mp hd
    unfold Settings.admits
    split
    · exact decide_eq_true (Nat.zero_le _)
    · rfl
  store := fun _ _ _ _ _ _ _ => trivial
  inner := fun _ _ _ _ _ hi => hi.elim

/-- How the second run has to be set up: memos are kept in both or in none, and what the first run
may open the second one may open, with the expressions around it. -/
structure Allows (deeper : Nat) (settings settings' : Settings) : Prop where
  memoize : settings'.memoize = settings.memoize
  admits : ∀ depth, settings.admits depth = true → settings'.admits (depth + deeper) = true

section Runs

variable {s t : State}

/-- Parts that are read in the same way and store nothing. -/
theorem lockstep_of_reads {g : Grammar α} {r : Place α} (h : T.Abreast outer whole deeper x s t)
    (hw : (g.read (T.was x)).Below (fun fault => fault.isDefect = true) (T.wasReading r))
    (hn : g.read (T.now x) = T.nowReading r)
    (hrun : ¬ (g.run settings (callWithin Rule.body settings n) s).IsAbort)
    (hrun' : ¬ (g.run settings' (callWithin Rule.body settings' n') t).IsAbort)
    (hkeys : SameKeys outer whole (g.run settings (callWithin Rule.body settings n) s).state.memo
      (g.run settings' (callWithin Rule.body settings' n') t).state.memo) :
    T.Lockstep outer whole deeper r (g.run settings (callWithin Rule.body settings n) s)
      (g.run settings' (callWithin Rule.body settings' n') t) := by
  have hread := read_of_below h.was (h.wasRest.symm ▸ hw) hrun
  have hread' : g.read t.cursor.rest = T.nowReading r := h.nowRest ▸ hn
  have hdepth := run_depth_eq settings n g s
  have hdepth' := run_depth_eq settings' n' g t
  cases r with
  | none =>
    obtain ⟨s', hs⟩ := run_of_mismatch h.was hread hrun
    obtain ⟨t', ht⟩ := run_of_mismatch h.now hread' hrun'
    rw [hs, ht] at hkeys ⊢
    exact .mismatch hkeys
  | some ay =>
    obtain ⟨a, y⟩ := ay
    obtain ⟨s', hs, hin, hrest⟩ := run_of_value h.was hread hrun
    obtain ⟨t', ht, hin', hrest'⟩ := run_of_value h.now hread' hrun'
    rw [hs, ht] at hkeys
    rw [hs] at hdepth
    rw [ht] at hdepth'
    rw [hs, ht]
    refine .value ⟨hin, hin', hrest, hrest', ?_, hkeys⟩
    exact hdepth'.trans (h.depth.trans (congrArg (· + deeper) hdepth.symm))

theorem not_isAbort_of_andThen {r : Outcome β} {f : β → State → Outcome α}
    (h : ¬ (r.andThen f).IsAbort) : ¬ r.IsAbort := by
  cases r with
  | abort a t => exact h
  | _ => exact id

theorem not_isAbort_of_orRetry {r : Outcome α} {start : Cursor} {f : State → Outcome α}
    (h : ¬ (Outcome.orRetry start f r).IsAbort) : ¬ r.IsAbort := by
  cases r with
  | abort a t => exact h
  | _ => exact id

theorem lockstep_andThen {q q' : Outcome β} {f f' : β → State → Outcome α} {b : β} {z : List Char}
    {r : Place α} (h : T.Lockstep outer whole deeper (some (b, z)) q q')
    (hf : ∀ s t, q = .value b s → T.Abreast outer whole deeper z s t →
      T.Lockstep outer whole deeper r (f b s) (f' b t)) :
    T.Lockstep outer whole deeper r (q.andThen f) (q'.andThen f') := by
  cases h with
  | value habreast => exact hf _ _ rfl habreast

theorem lockstep_andThen_mismatch {q q' : Outcome β} {f f' : β → State → Outcome α}
    (h : T.Lockstep outer whole deeper none q q') :
    T.Lockstep outer whole deeper none (q.andThen f) (q'.andThen f') := by
  cases h with
  | mismatch hkeys => exact .mismatch hkeys

/-- Back where the first alternative began. -/
theorem Abreast.retry {s' t' : State} {g g' : Grammar α}
    (h : T.Abreast outer whole deeper x s t)
    (hs : g.run settings (callWithin Rule.body settings n) s = .mismatch s')
    (ht : g'.run settings' (callWithin Rule.body settings' n') t = .mismatch t')
    (hkeys : SameKeys outer whole s'.memo t'.memo) :
    T.Abreast outer whole deeper x (s'.moveTo s.cursor) (t'.moveTo t.cursor) := by
  have hdepth : s'.depth = s.depth := by
    have hd := run_depth_eq settings n g s
    rwa [hs] at hd
  have hdepth' : t'.depth = t.depth := by
    have hd := run_depth_eq settings' n' g' t
    rwa [ht] at hd
  refine ⟨h.was.moveTo (run_mismatch h.was hs).2, h.now.moveTo (run_mismatch h.now ht).2,
    h.wasRest, h.nowRest, ?_, hkeys⟩
  exact hdepth'.trans (h.depth.trans (congrArg (· + deeper) hdepth.symm))

/-- Storing the outcomes of a rule in both memos. -/
theorem SameKeys.store {memo memo' : Memo} (h : SameKeys outer whole memo memo') {rule : Rule}
    {offset offset' : Nat} {entry entry' : MemoEntry rule} (he : offset' = outer.length + offset) :
    SameKeys outer whole (memo.insert (rule, offset) entry)
      (memo'.insert (rule, offset') entry') := by
  subst he
  intro rule' offset' ho
  rw [Memo.knows_insert, Memo.knows_insert, h rule' offset' ho]
  simp only [Prod.mk.injEq, Nat.add_left_cancel_iff]

theorem lockstep_runRule {rule : Rule} {r : Place rule.Result}
    (habreast : T.Abreast outer whole deeper x s t)
    (hm : settings'.memoize = settings.memoize)
    (h : T.Lockstep outer whole deeper r
      (rule.body.run settings (callWithin Rule.body settings n) (s.enter rule))
      (rule.body.run settings' (callWithin Rule.body settings' n') (t.enter rule))) :
    SameKeys outer whole
      (runRule settings rule (rule.body.run settings (callWithin Rule.body settings n)) s).state.memo
      (runRule settings' rule (rule.body.run settings' (callWithin Rule.body settings' n'))
        t).state.memo := by
  rw [runRule, runRule, hm]
  generalize rule.body.run settings (callWithin Rule.body settings n) (s.enter rule) = q at h
  generalize rule.body.run settings' (callWithin Rule.body settings' n') (t.enter rule) = q' at h
  cases h with
  | value hend =>
    cases settings.memoize with
    | false => exact hend.keys
    | true =>
      exact hend.keys.store habreast.offset_eq
  | mismatch hkeys =>
    cases settings.memoize with
    | false => exact hkeys
    | true =>
      exact hkeys.store habreast.offset_eq

/-- The second run does what the first one does, unless that ends the parse. -/
theorem Same.runs {p : Part α} {r : Place α} (h : T.Same p x r)
    (hallows : Allows deeper settings settings') (hn : n + T.levels ≤ n')
    (habreast : T.Abreast outer whole deeper x s t) (bound bound' : List Char)
    (hb : x.length ≤ bound.length) (hb' : x.length ≤ bound'.length)
    (hrun : ¬ (p.run settings (callWithin Rule.body settings n) bound s).IsAbort) :
    T.Lockstep outer whole deeper r
      (p.run settings (callWithin Rule.body settings n) bound s)
      (p.run settings' (callWithin Rule.body settings' n') bound' t) := by
  induction h generalizing n n' s t bound bound' with
  | @plain α g x r hg hw hnow =>
    have hplain := run_callFree settings (callWithin Rule.body settings n) Rule.read g hg s
      habreast.was.within
    have hplain' := run_callFree settings' (callWithin Rule.body settings' n') Rule.read g hg t
      habreast.now.within
    refine lockstep_of_reads habreast hw hnow hrun ?_ ?_
    · refine hplain'.ends.not_isAbort fun fault he => T.nowReading_ne_abort r fault ?_
      rw [← hnow, ← habreast.nowRest]
      exact he
    · rw [hplain.memo, hplain'.memo]
      exact habreast.keys
  | @bind α β first next x z b r _ _ ihf ihn =>
    simp only [Part.run, run_bind] at hrun ⊢
    have hfirst := ihf hn habreast x x (Nat.le_refl _) (Nat.le_refl _)
      (not_isAbort_of_andThen hrun)
    refine lockstep_andThen hfirst fun s' t' hs hend => ?_
    have hs : first.run settings (callWithin Rule.body settings n) s = .value b s' := hs
    rw [hs] at hrun
    exact ihn hn hend z z (Nat.le_refl _) (Nat.le_refl _) hrun
  | @miss α β first next x _ ih =>
    simp only [Part.run, run_bind] at hrun ⊢
    exact lockstep_andThen_mismatch (ih hn habreast x x (Nat.le_refl _) (Nat.le_refl _)
      (not_isAbort_of_andThen hrun))
  | @left α first second x y a _ ih =>
    simp only [Part.run, Grammar.run] at hrun ⊢
    exact lockstep_orRetry (ih hn habreast x x (Nat.le_refl _) (Nat.le_refl _)
      (not_isAbort_of_orRetry hrun))
  | @right α first second x r _ _ ihf ihs =>
    simp only [Part.run, Grammar.run] at hrun ⊢
    have hstep := ihf hn habreast x x (Nat.le_refl _) (Nat.le_refl _)
      (not_isAbort_of_orRetry hrun)
    simp only [Part.run] at hstep
    cases hs : first.run settings (callWithin Rule.body settings n) s with
    | value b s' => rw [hs] at hstep; cases hstep
    | abort b s' => rw [hs] at hstep; cases hstep
    | mismatch s' =>
      cases ht : first.run settings' (callWithin Rule.body settings' n') t with
      | value b t' => rw [hs, ht] at hstep; cases hstep
      | abort b t' => rw [hs, ht] at hstep; cases hstep
      | mismatch t' =>
        rw [hs, ht] at hstep
        rw [hs] at hrun
        cases hstep with
        | mismatch hkeys =>
          exact ihs hn (habreast.retry hs ht hkeys) x x (Nat.le_refl _) (Nat.le_refl _) hrun
  | @call rule x r hx hbody ih =>
    cases n with
    | zero => exact absurd trivial hrun
    | succ n =>
      obtain ⟨n', rfl⟩ : ∃ k, n' = k + 1 := ⟨n' - 1, by omega⟩
      have hn : n + T.levels ≤ n' := by omega
      have hsame : T.Same (.term (.call rule)) x r := .call hx hbody
      have hrecalls := habreast.recalls hx hallows.memoize rule
      cases hr : settings.recalls rule s with
      | true =>
        have hwas := recallRule_recalled (rule.body.run settings (callWithin Rule.body settings n)) hr
        have hnow := recallRule_recalled
          (rule.body.run settings' (callWithin Rule.body settings' n')) (hrecalls.trans hr)
        refine lockstep_of_reads (g := .call rule) habreast hsame.read_was hsame.read_now hrun
          hnow.1 ?_
        simp only [Grammar.run, callWithin, hwas.2, hnow.2]
        exact habreast.keys
      | false =>
        have hfresh : callWithin Rule.body settings (n + 1) rule s =
            runRule settings rule (rule.body.run settings (callWithin Rule.body settings n)) s :=
          recallRule_fresh hr
        have hfresh' : callWithin Rule.body settings' (n' + 1) rule t =
            runRule settings' rule (rule.body.run settings' (callWithin Rule.body settings' n')) t :=
          recallRule_fresh (hrecalls.trans hr)
        have hbody := hrun
        simp only [Part.run, Grammar.run, hfresh, runRule_isAbort] at hbody
        have hstep := ih hn (habreast.enter rule) x x (Nat.le_refl _) (Nat.le_refl _) hbody
        have hkeys := lockstep_runRule habreast hallows.memoize hstep
        refine lockstep_of_reads (g := .call rule) habreast hsame.read_was hsame.read_now hrun ?_ ?_
        · simp only [Grammar.run, hfresh', runRule_isAbort]
          exact hstep.not_isAbort
        · simp only [Grammar.run, hfresh, hfresh']
          exact hkeys
  | @nested α g x r hbody ih =>
    have hsame : T.Same (.term (.nested g)) x r := .nested hbody
    have hadmits : settings.admits (s.depth + 1) = true := by
      refine Decidable.byContradiction fun ha => hrun ?_
      exact run_nested_of_refuses ha
    have hadmits' : settings'.admits (t.depth + 1) = true := by
      have h := hallows.admits _ hadmits
      rwa [Nat.add_right_comm, ← habreast.depth] at h
    have hwas := run_nested_of_admits (g := g) (n := n) hadmits
    have hnow := run_nested_of_admits (g := g) (n := n') hadmits'
    have hrun' := hrun
    simp only [Part.run, hwas, Outcome.isAbort_mapState] at hrun'
    have hstep := ih hn habreast.deepen x x (Nat.le_refl _) (Nat.le_refl _) hrun'
    refine lockstep_of_reads (g := .nested g) habreast hsame.read_was hsame.read_now hrun ?_ ?_
    · rw [hnow, Outcome.isAbort_mapState]
      exact hstep.not_isAbort
    · rw [hwas, hnow, memo_withDepth, memo_withDepth]
      exact hstep.keys
  | iterate _ ih =>
    refine ih hn habreast s.cursor.rest t.cursor.rest ?_ ?_ hrun
    · rw [habreast.wasRest, was_length]
      exact Nat.le_add_right _ _
    · rw [habreast.nowRest, now_length]
      exact Nat.le_add_right _ _
  | last _ ih =>
    simp only [Part.run] at hrun ⊢
    rw [iterateWithin_step] at hrun ⊢
    rw [iterateWithin_step]
    refine lockstep_andThen (ih hn habreast bound bound' hb hb' (not_isAbort_of_andThen hrun))
      fun s' t' _ hend => .value hend
  | stuck _ ih =>
    simp only [Part.run] at hrun ⊢
    rw [iterateWithin_step] at hrun ⊢
    rw [iterateWithin_step]
    exact lockstep_andThen_mismatch (ih hn habreast bound bound' hb hb'
      (not_isAbort_of_andThen hrun))
  | @next α σ state state' step x z r _ hlt _ ihs ihn =>
    simp only [Part.run] at hrun ⊢
    rw [iterateWithin_step] at hrun ⊢
    rw [iterateWithin_step]
    obtain ⟨c, bound, rfl⟩ := List.exists_cons_of_length_pos
      (Nat.lt_of_lt_of_le (Nat.zero_lt_of_lt hlt) hb)
    obtain ⟨c', bound', rfl⟩ := List.exists_cons_of_length_pos
      (Nat.lt_of_lt_of_le (Nat.zero_lt_of_lt hlt) hb')
    rw [List.length_cons] at hb hb'
    refine lockstep_andThen (ihs hn habreast x x (Nat.le_refl _) (Nat.le_refl _)
      (not_isAbort_of_andThen hrun)) fun s' t' hs hend => ?_
    have hs : (step state).run settings (callWithin Rule.body settings n) s =
      .value (.inl state') s' := hs
    rw [hs] at hrun
    exact ihn hn hend bound bound' (by omega) (by omega) hrun
  | @tail α g hw hq =>
    have hsame : T.Same (.term g) [] none := .tail hw hq
    have hsteady := (hq t.depth).run (keeps_anything settings' _) n' t habreast.now
      habreast.nowRest rfl trivial _ (Nat.le_refl _)
    refine lockstep_of_reads habreast hsame.read_was hsame.read_now hrun
      (hsteady.goesOn (by dsimp only [Surroundings.bare]; omega)) fun rule offset ho => ?_
    have hwas := habreast.offset_was
    have hnow := habreast.offset_now
    rw [List.length_nil] at hwas hnow
    rw [run_untouched g habreast.was (.inr (by omega)) rule,
      run_untouched g habreast.now (.inr (by omega)) rule, habreast.keys rule offset ho]

theorem Same.run_now {g : Grammar α} {r : Place α} (h : T.Same (.term g) x r)
    (hallows : Allows deeper settings settings') (hn : n + T.levels ≤ n')
    (habreast : T.Abreast outer whole deeper x s t)
    (hrun : ¬ (g.run settings (callWithin Rule.body settings n) s).IsAbort) :
    T.Lockstep outer whole deeper r
      (g.run settings (callWithin Rule.body settings n) s)
      (g.run settings' (callWithin Rule.body settings' n') t) :=
  h.runs hallows hn habreast x x (Nat.le_refl _) (Nat.le_refl _) hrun

end Runs

end Seam

end DhallSyntax
