import DhallSyntax.Proofs.Seam.Runs

/-!
Runs that end the parse at a known place. What leads there is steady, and from there on the open
rules are left one after the other, without another look at the text; and parses that fail without a
fault. Main statements: `Halts.run`, `parse_mismatch_of_steady`, `parse_trailing_of_steady`.
-/

namespace DhallSyntax

variable {α β σ : Type} {settings : Settings} {source : List Char} {s : State} {n : Nat}
  {S : Surroundings} {K : Memo → Prop} {levels depth : Nat} {t v : List Char}

/-! ## Ways to a fault -/

/-- How a part of a grammar ends the parse: the fault, how many characters of the text are left from
where it begins, and the rules that were opened on the way, outermost first. -/
structure Halt where
  fault : Fault
  left : Nat
  opened : List Rule

/-- A part of a grammar at a text, so many levels of rules above the calls that are known, and so
many expressions deep: it ends the parse, and what comes before that is steady. -/
inductive Halts (S : Surroundings) : (levels depth : Nat) → {α : Type} → Part α → List Char →
    Halt → Prop where
  | abort {levels depth : Nat} {α : Type} {fault : Fault} {back : Nat} {t : List Char} :
      Halts S levels depth (.term (.abort fault back : Grammar α)) t ⟨fault, t.length + back, []⟩
  | first {levels depth : Nat} {α β : Type} {first : Grammar β} {next : β → Grammar α}
      {t : List Char} {h : Halt} : Halts S levels depth (.term first) t h →
      Halts S levels depth (.term (.bind first next)) t h
  | next {levels depth : Nat} {α β : Type} {first : Grammar β} {next : β → Grammar α}
      {t u : List Char} {b : β} {h : Halt} :
      Steady S levels depth (.term first) t (some (b, u)) →
      Halts S levels depth (.term (next b)) u h →
      Halts S levels depth (.term (.bind first next)) t h
  | left {levels depth : Nat} {α : Type} {first second : Grammar α} {t : List Char} {h : Halt} :
      Halts S levels depth (.term first) t h →
      Halts S levels depth (.term (.orElse first second)) t h
  | right {levels depth : Nat} {α : Type} {first second : Grammar α} {t : List Char} {h : Halt} :
      Steady S levels depth (.term first) t none → Halts S levels depth (.term second) t h →
      Halts S levels depth (.term (.orElse first second)) t h
  | call {levels depth : Nat} {rule : Rule} {t : List Char} {fault : Fault} {left : Nat}
      {opened : List Rule} : Halts S levels depth (.term rule.body) t ⟨fault, left, opened⟩ →
      Halts S (levels + 1) depth (.term (.call rule)) t ⟨fault, left, rule :: opened⟩
  | nested {levels depth : Nat} {α : Type} {g : Grammar α} {t : List Char} {h : Halt} :
      depth + 1 ≤ S.bound → Halts S levels (depth + 1) (.term g) t h →
      Halts S levels depth (.term (.nested g)) t h
  | iterate {levels depth : Nat} {α σ : Type} {state : σ} {step : σ → Grammar (σ ⊕ α)}
      {t : List Char} {h : Halt} : Halts S levels depth (.loop step state) t h →
      Halts S levels depth (.term (.iterate state step)) t h
  | step {levels depth : Nat} {α σ : Type} {state : σ} {step : σ → Grammar (σ ⊕ α)}
      {t : List Char} {h : Halt} : Halts S levels depth (.term (step state)) t h →
      Halts S levels depth (.loop step state) t h
  | again {levels depth : Nat} {α σ : Type} {state state' : σ} {step : σ → Grammar (σ ⊕ α)}
      {t u : List Char} {h : Halt} :
      Steady S levels depth (.term (step state)) t (some (.inl state', u)) → u.length < t.length →
      Halts S levels depth (.loop step state') u h → Halts S levels depth (.loop step state) t h

/-- What a part makes of a text that it ends the parse at. -/
def Part.Aborts (t : List Char) (fault : Fault) : Part α → Prop
  | .term g => g.read t = .abort fault
  | .loop step state => ∀ bound : List Char, t.length ≤ bound.length →
      Reading.iterateWithin (fun state s => (step state).read s) bound state t = .abort fault

theorem Halts.aborts {p : Part α} {h : Halt} (hp : Halts S levels depth p t h) :
    p.Aborts t h.fault := by
  induction hp with
  | abort => rfl
  | first _ ih =>
    simp only [Part.Aborts, Grammar.read] at ih ⊢
    rw [Grammar.readBy, ih]
    rfl
  | next hf _ ih =>
    have hf := hf.read
    simp only [Part.Aborts, Grammar.read] at hf ih ⊢
    rw [Grammar.readBy, hf]
    exact ih
  | left _ ih =>
    simp only [Part.Aborts, Grammar.read] at ih ⊢
    rw [Grammar.readBy, ih]
    rfl
  | right hf _ ih =>
    have hf := hf.read
    simp only [Part.Aborts, Grammar.read] at hf ih ⊢
    rw [Grammar.readBy, hf]
    exact ih
  | call _ ih => exact (Rule.read_eq ..).trans ih
  | nested _ _ ih => exact ih
  | iterate _ ih => exact ih _ (Nat.le_refl _)
  | step _ ih =>
    intro bound _
    have ih : _ = Reading.abort _ := ih
    rw [Reading.iterateWithin, ih]
    rfl
  | again hf hlt _ ih =>
    intro bound hb
    obtain ⟨c, bound, rfl⟩ := List.exists_cons_of_length_pos
      (Nat.lt_of_lt_of_le (Nat.zero_lt_of_lt hlt) hb)
    rw [List.length_cons] at hb
    have hf : _ = Reading.value _ _ := hf.read
    rw [Reading.iterateWithin, hf]
    exact ih bound (by omega)

/-! ## The states on the way -/

/-- The states that a part passes through, or what is left of a repetition. -/
def Part.moments (settings : Settings) (caller : Caller) (watcher : Watcher) {α : Type} :
    Part α → (bound : List Char) → State → List State
  | .term g, _, s => g.moments settings caller watcher s
  | .loop step state, bound, s =>
    iterateMoments (fun state s => (step state).run settings caller s)
      (fun state s => (step state).moments settings caller watcher s) bound state s

/-- The states lead to one inside some rules, and behind it there is nothing but leaving rules: the
place in the text stays the same, and no rule is opened. -/
def Unwinds (active : List Rule) (place : Cursor) (moments : List State) : Prop :=
  ∃ before halted later, moments = before ++ halted :: later ∧ halted.active = active ∧
    halted.cursor = place ∧ ∀ s ∈ later, s.cursor = place ∧ s.active <:+ active

namespace Unwinds

variable {active : List Rule} {place : Cursor} {moments : List State}

theorem behind (h : Unwinds active place moments) (before : List State) :
    Unwinds active place (before ++ moments) := by
  obtain ⟨first, halted, later, rfl, hhalted, hlater⟩ := h
  exact ⟨before ++ first, halted, later, (List.append_assoc ..).symm, hhalted, hlater⟩

theorem leaving (h : Unwinds active place moments) (hplace : s.cursor = place)
    (hactive : s.active <:+ active) : Unwinds active place (moments ++ [s]) := by
  obtain ⟨first, halted, later, rfl, hhalted, hcursor, hlater⟩ := h
  refine ⟨first, halted, later ++ [s], List.append_assoc .., hhalted, hcursor, ?_⟩
  exact List.forall_mem_append.mpr ⟨hlater, List.forall_mem_singleton.mpr ⟨hplace, hactive⟩⟩

end Unwinds

/-- A run ends the parse as it is said, and its states unwind from there. -/
def Outcome.HaltsAt (source : List Char) (s : State) (h : Halt) (moments : List State)
    (r : Outcome α) : Prop :=
  ∃ u, r = .abort ⟨h.fault, source.length - h.left, s.rules ++ h.opened⟩ u ∧
    u.active = s.active ∧ Unwinds (h.opened.reverse ++ s.active) u.cursor moments

namespace Outcome.HaltsAt

variable {w : State} {h : Halt} {moments : List State} {r : Outcome α}

/-- The same in the same open rules, with something in front of it. -/
theorem behind (hr : r.HaltsAt source w h moments) (hactive : w.active = s.active)
    (before : List State) : r.HaltsAt source s h (before ++ moments) := by
  obtain ⟨u, rfl, hopen, hunwinds⟩ := hr
  refine ⟨u, ?_, hopen.trans hactive, ?_⟩
  · rw [State.rules, State.rules, hactive]
  · exact hactive ▸ hunwinds.behind before

/-- Around what ends the parse something is changed back that no text and no rule depend on. -/
theorem mapState (hr : r.HaltsAt source w h moments) (hactive : w.active = s.active)
    {f : State → State} (hcursor : ∀ u, (f u).cursor = u.cursor)
    (hsame : ∀ u, (f u).active = u.active) (before : List State) :
    (r.mapState f).HaltsAt source s h (before ++ moments ++ [(r.mapState f).state]) := by
  obtain ⟨u, hu, hopen, hunwinds⟩ := hr.behind hactive before
  subst hu
  refine ⟨f u, rfl, (hsame u).trans hopen, ?_⟩
  rw [hcursor]
  exact hunwinds.leaving (hcursor u) (by
    rw [show (mapState f _).state = f u from rfl, hsame, hopen]
    exact List.suffix_append _ _)

end Outcome.HaltsAt

/-! ## Steady runs on the way -/

/-- With enough levels a steady part that has a value gets there. -/
theorem Steady.run_ok (hK : S.Keeps settings source K) {g : Grammar α} {a : α}
    (h : Steady S levels depth (.term g) t (some (a, v))) (hs : s.In source)
    (ht : s.cursor.rest = t) (hd : s.depth = depth) (hm : K s.memo) (hn : levels + S.stack ≤ n) :
    ∃ u, g.run settings (callWithin Rule.body settings n) s = .value a u ∧ u.In source ∧
      u.cursor.rest = v ∧ u.depth = depth ∧ u.active = s.active ∧ K u.memo := by
  have hsteadily := h.run hK n s hs ht hd hm _ (Nat.le_refl _)
  obtain ⟨u, hu, hin, hrest⟩ := run_of_value hs (ht ▸ h.read) (hsteadily.goesOn hn)
  have hkeeps := hsteadily.keeps (hsteadily.goesOn hn)
  simp only [Part.run, hu] at hkeeps
  exact ⟨u, hu, hin, hrest, (h.run_value hs ht hd hu).2.2.2, run_active hs hu, hkeeps⟩

/-- So does one that does not match. -/
theorem Steady.run_miss (hK : S.Keeps settings source K) {g : Grammar α}
    (h : Steady S levels depth (.term g) t none) (hs : s.In source)
    (ht : s.cursor.rest = t) (hd : s.depth = depth) (hm : K s.memo) (hn : levels + S.stack ≤ n) :
    ∃ u, g.run settings (callWithin Rule.body settings n) s = .mismatch u ∧
      (u.moveTo s.cursor).In source ∧ u.depth = depth ∧ u.active = s.active ∧ K u.memo := by
  have hsteadily := h.run hK n s hs ht hd hm _ (Nat.le_refl _)
  obtain ⟨u, hu⟩ := run_of_mismatch hs (ht ▸ h.read) (hsteadily.goesOn hn)
  have hkeeps := hsteadily.keeps (hsteadily.goesOn hn)
  have hdepth := run_depth_eq settings n g s
  simp only [Part.run, hu] at hkeeps
  rw [hu] at hdepth
  exact ⟨u, hu, hs.moveTo (run_mismatch hs hu).2, hdepth.trans hd, run_mismatch_active hs hu,
    hkeeps⟩

/-- A rule that ends the parse is not in the memo, since that is sound. -/
theorem recalls_of_read_abort {rule : Rule} {fault : Fault} (hs : s.In source)
    (h : rule.read s.cursor.rest = .abort fault) : settings.recalls rule s = false := by
  cases hr : settings.recalls rule s with
  | false => rfl
  | true =>
    obtain ⟨hgoes, -⟩ := recallRule_recalled
      (rule.body.run settings (callWithin Rule.body settings 0)) hr
    have hcall : (Grammar.call rule).run settings (callWithin Rule.body settings 1) s =
        recallRule settings rule (rule.body.run settings (callWithin Rule.body settings 0)) s := rfl
    cases hrun : (Grammar.call rule).run settings (callWithin Rule.body settings 1) s with
    | value a t => cases h.symm.trans (run_value hs hrun).1
    | mismatch t => cases h.symm.trans (run_mismatch hs hrun).1
    | abort a t =>
      rw [← hcall, hrun] at hgoes
      exact absurd trivial hgoes

/-! ## Runs to a fault -/

/-- With enough levels a part ends the parse as it is said, and nothing more is tried. -/
theorem Halts.run (hK : S.Keeps settings source K) {p : Part α} {h : Halt}
    (hp : Halts S levels depth p t h) (n : Nat) (s : State) (hs : s.In source)
    (ht : s.cursor.rest = t) (hd : s.depth = depth) (hm : K s.memo) (bound : List Char)
    (hb : t.length ≤ bound.length) (hn : levels + S.stack ≤ n) :
    (p.run settings (callWithin Rule.body settings n) bound s).HaltsAt source s h
      (p.moments settings (callWithin Rule.body settings n) (momentsWithin Rule.body settings n)
        bound s) := by
  induction hp generalizing n s bound with
  | @abort _ _ _ fault back t =>
    have hplace := hs.offset_add
    rw [ht] at hplace
    refine ⟨s, ?_, rfl, [s], s, [], rfl, rfl, rfl, fun _ h => nomatch h⟩
    simp only [Part.run, Grammar.run, State.abort, List.append_nil]
    congr 2
    omega
  | first _ ih =>
    obtain ⟨u, hu, hrest⟩ := ih n s hs ht hd hm bound hb hn
    simp only [Part.run, Part.moments] at hu hrest
    refine ⟨u, ?_, ?_⟩
    · simp only [Part.run, Grammar.run, hu]
    · simp only [Part.moments, Grammar.moments, hu, Outcome.afterValue, List.append_nil]
      exact hrest
  | next hf _ ih =>
    obtain ⟨w, hw, hin, hrest, hdepth, hopen, hk⟩ := hf.run_ok hK hs ht hd hm hn
    have hnext := ih n w hin hrest hdepth hk _ (Nat.le_refl _) hn
    simp only [Part.run, Part.moments, Grammar.run, Grammar.moments, hw, Outcome.afterValue]
    exact hnext.behind hopen _
  | left _ ih =>
    obtain ⟨u, hu, hrest⟩ := ih n s hs ht hd hm bound hb hn
    simp only [Part.run, Part.moments] at hu hrest
    refine ⟨u, ?_, ?_⟩
    · simp only [Part.run, Grammar.run, hu, Outcome.orRetry]
    · simp only [Part.moments, Grammar.moments, hu, Outcome.afterMismatch, List.append_nil]
      exact hrest
  | right hf _ ih =>
    obtain ⟨w, hw, hin, hdepth, hopen, hk⟩ := hf.run_miss hK hs ht hd hm hn
    have hsecond := ih n _ hin ht hdepth hk _ (Nat.le_refl _) hn
    simp only [Part.run, Part.moments, Grammar.run, Grammar.moments, hw, Outcome.orRetry,
      Outcome.afterMismatch]
    exact hsecond.behind hopen _
  | @call levels depth rule t fault left opened hbody ih =>
    obtain ⟨m, rfl⟩ : ∃ m, n = m + 1 := ⟨n - 1, by omega⟩
    have hfresh : settings.recalls rule s = false :=
      recalls_of_read_abort hs (ht ▸ (Rule.read_eq ..).trans hbody.aborts)
    have hinside := ih m (s.enter rule) (hs.enter rule) ht hd hm _ (Nat.le_refl _) (by omega)
    obtain ⟨u, hu, hopen, hunwinds⟩ := hinside
    simp only [Part.run, Part.moments] at hu hunwinds
    have hrules : (s.enter rule).rules ++ opened = s.rules ++ rule :: opened := by
      simp [State.rules, State.enter]
    have hrun : callWithin Rule.body settings (m + 1) rule s =
        .abort ⟨fault, source.length - left, s.rules ++ rule :: opened⟩ u.leave := by
      rw [callWithin, recallRule_fresh hfresh, runRule, hu, hrules]
      rfl
    have hstack : (rule :: opened).reverse ++ s.active =
        opened.reverse ++ (s.enter rule).active := by
      simp [State.enter]
    have hleft : u.leave.active = s.active := congrArg List.tail hopen
    refine ⟨u.leave, hrun, hleft, ?_⟩
    simp only [Part.moments, Grammar.moments, momentsWithin, hfresh, hrun, Bool.false_eq_true,
      if_false]
    rw [hstack]
    refine (hunwinds.behind [s]).leaving rfl ?_
    rw [show (Outcome.abort _ u.leave : Outcome rule.Result).state = u.leave from rfl, hleft]
    exact (List.suffix_cons rule s.active).trans (List.suffix_append _ _)
  | @nested levels depth α g t h hbound _ ih =>
    subst hd
    have hadmits := hK.admits _ hbound
    have hinside := ih n (s.withDepth (s.depth + 1)) (hs.withDepth _) ht rfl hm _ (Nat.le_refl _) hn
    have hrun : (Grammar.nested g).run settings (callWithin Rule.body settings n) s =
        (g.run settings (callWithin Rule.body settings n) (s.withDepth (s.depth + 1))).mapState
          fun t => t.withDepth (t.depth - 1) :=
      run_nested_of_admits hadmits
    have hdeeper : settings.admits (s.withDepth (s.depth + 1)).depth = true := hadmits
    have hend : nestedWithin settings (g.run settings (callWithin Rule.body settings n)) s = _ := hrun
    simp only [Part.run, Part.moments] at hinside
    simp only [Part.run, Part.moments, Grammar.moments, hdeeper, if_true]
    rw [hend, hrun]
    refine Outcome.HaltsAt.mapState hinside rfl ?_ ?_ _
    · exact fun _ => rfl
    · exact fun _ => rfl
  | iterate _ ih => exact ih n s hs ht hd hm _ (ht ▸ Nat.le_refl _) hn
  | step _ ih =>
    obtain ⟨u, hu, hrest⟩ := ih n s hs ht hd hm bound hb hn
    simp only [Part.run, Part.moments] at hu hrest
    refine ⟨u, ?_, ?_⟩
    · simp only [Part.run]
      rw [iterateWithin_step, hu]
      rfl
    · simp only [Part.moments]
      rw [iterateMoments, hu]
      simp only [Outcome.afterValue, List.append_nil]
      exact hrest
  | again hf hlt _ ih =>
    obtain ⟨w, hw, hin, hrest, hdepth, hopen, hk⟩ := hf.run_ok hK hs ht hd hm hn
    obtain ⟨c, bound, rfl⟩ := List.exists_cons_of_length_pos
      (Nat.lt_of_lt_of_le (Nat.zero_lt_of_lt hlt) hb)
    rw [List.length_cons] at hb
    have hnext := ih n w hin hrest hdepth hk bound (by omega) hn
    simp only [Part.run, Part.moments]
    rw [iterateWithin_step, iterateMoments, hw]
    exact hnext.behind hopen _

/-- With enough levels a run from the beginning of a source ends as it is said, and its states
unwind from there. -/
theorem runFrom_of_halts {g : Grammar α} {h : Halt} (hK : S.Keeps settings source K) (hempty : K ∅)
    (hp : Halts S levels 0 (.term g) source h) (hn : levels + S.stack ≤ settings.stack) :
    (runFrom settings source g).result =
        .error (.ofAbort source ⟨h.fault, source.length - h.left, h.opened⟩) ∧
      ∃ place, Unwinds h.opened.reverse place (g.history settings (.initial source)) := by
  obtain ⟨u, hu, -, hunwinds⟩ := hp.run hK settings.stack _ (.initial source) rfl rfl hempty _
    (Nat.le_refl _) hn
  simp only [Part.run] at hu
  have hstart : g.start settings (.initial source) = .abort _ u := hu
  refine ⟨?_, u.cursor, ?_⟩
  · unfold runFrom
    rw [hstart]
    rfl
  · have hopened : h.opened.reverse ++ (State.initial source).active = h.opened.reverse :=
      List.append_nil _
    rw [hopened] at hunwinds
    exact hunwinds

/-! ## Parses that fail without a fault -/

/-- Where a steady way through a source does not match, the furthest mismatch is reported. -/
theorem parse_mismatch_of_steady {source : String} (hK : S.Keeps settings source.toList K)
    (hempty : K ∅) (h : Steady S levels 0 (.term Grammar.completeExpression) source.toList none)
    (hn : levels + S.stack ≤ settings.stack) :
    ∃ e, parse settings source = .error (.source e) ∧ e.kind = .mismatch := by
  obtain ⟨u, hu, -⟩ := h.run_miss hK (.initial source.toList) rfl rfl hempty hn
  have hparse : parse settings source = .error (.ofFurthest source.toList u.furthest) := by
    unfold parse parseWith runFrom
    rw [Grammar.start, hu]
  exact ⟨_, hparse, rfl⟩

/-- Where it leaves some of the source, that is reported. -/
theorem parse_trailing_of_steady {source : String} {e : Expr} (hv : v ≠ [])
    (hK : S.Keeps settings source.toList K) (hempty : K ∅)
    (h : Steady S levels 0 (.term Grammar.completeExpression) source.toList (some (e, v)))
    (hn : levels + S.stack ≤ settings.stack) :
    ∃ e, parse settings source = .error (.source e) ∧ e.kind = .trailing := by
  obtain ⟨u, hu, -, hrest, -⟩ := h.run_ok hK (.initial source.toList) rfl rfl hempty hn
  have hleft : u.cursor.rest.isEmpty = false := by
    rw [hrest]
    exact Bool.eq_false_iff.mpr fun hnil => hv (List.isEmpty_iff.mp hnil)
  have hparse : parse settings source =
      .error (.ofTrailing source.toList u.cursor.offset u.furthest) := by
    unfold parse parseWith runFrom
    rw [Grammar.start, hu]
    simp only [hleft, Bool.false_eq_true, if_false]
  refine ⟨_, hparse, ?_⟩
  split
  · rfl
  · split
    · rfl
    · split <;> rfl

end DhallSyntax
