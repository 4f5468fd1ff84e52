import DhallSyntax.Proofs.Parser.Furthest
import DhallSyntax.Proofs.Parser.Termination

/-!
What the furthest failure of a run tells. Main statement: `run_tells`, a run adds the alternatives
that give up during it to the report, and nothing else.
-/

namespace DhallSyntax

variable {α β σ : Type} {settings : Settings} {source : List Char} {n : Nat}

theorem Report.addAll_append (r : Report) (misses more : List Miss) :
    r.addAll (misses ++ more) = (r.addAll misses).addAll more :=
  List.foldl_append ..

/-! ## What a run adds -/

/-- From one state to another the report counts some alternatives that gave up, all of those that
are meant and no other. -/
def Tells (s : State) (missed : State → String → Prop) (t : State) : Prop :=
  ∃ misses : List (State × String),
    t.report = s.report.addAll (misses.map fun m => m.1.miss m.2) ∧
      ∀ u x, (u, x) ∈ misses ↔ missed u x

namespace Tells

variable {s t u : State} {missed later : State → String → Prop}

theorem nothing (h : t.report = s.report) (hno : ∀ u x, ¬ missed u x) : Tells s missed t :=
  ⟨[], h, fun u x => iff_of_false List.not_mem_nil (hno u x)⟩

theorem trans (h : Tells s missed t) (h' : Tells t later u) :
    Tells s (fun v x => missed v x ∨ later v x) u := by
  obtain ⟨misses, hr, hm⟩ := h
  obtain ⟨more, hr', hm'⟩ := h'
  refine ⟨misses ++ more, ?_, fun v x => ?_⟩
  · rw [hr', hr, List.map_append, Report.addAll_append]
  · rw [List.mem_append, hm, hm']

theorem congr (h : Tells s missed t) (hiff : ∀ u x, later u x ↔ missed u x) : Tells s later t := by
  obtain ⟨misses, hr, hm⟩ := h
  exact ⟨misses, hr, fun u x => (hm u x).trans (hiff u x).symm⟩

/-- The report says nothing else of a state. -/
theorem report_eq {s' t' : State} (h : Tells s missed t) (hs : s'.report = s.report)
    (ht : t'.report = t.report) : Tells s' missed t' := by
  obtain ⟨misses, hr, hm⟩ := h
  exact ⟨misses, by rw [ht, hr, hs], hm⟩

end Tells

/-- The alternatives that give up while a part of a grammar is run. -/
def Grammar.Misses (settings : Settings) (stack : Nat) (g : Grammar α) (s u : State) (x : String) :
    Prop :=
  g.Happens settings stack s (.miss u x)

/-! ## What runs tell -/

section Runs

variable {s : State}

theorem tells_andThen {r : Outcome β} {f : β → State → Outcome α}
    {missed : State → String → Prop} {later : β → State → State → String → Prop}
    (h : Tells s missed r.state)
    (hf : ∀ b t, r = .value b t → Tells t (later b t) (f b t).state) :
    Tells s (fun u x => missed u x ∨ ∃ b t, r = .value b t ∧ later b t u x)
      (r.andThen f).state := by
  cases r with
  | value b t =>
    refine (h.trans (hf b t rfl)).congr fun u x => or_congr_right ⟨?_, fun hl => ⟨b, t, rfl, hl⟩⟩
    rintro ⟨_, _, ⟨⟩, hl⟩
    exact hl
  | mismatch t | abort a t =>
    refine h.congr fun u x => or_iff_left ?_
    rintro ⟨_, _, ⟨⟩, -⟩

theorem tells_orRetry {r : Outcome α} {start : Cursor} {f : State → Outcome α}
    {missed : State → String → Prop} {later : State → State → String → Prop}
    (h : Tells s missed r.state)
    (hf : ∀ t, r = .mismatch t → Tells t (later t) (f (t.moveTo start)).state) :
    Tells s (fun u x => missed u x ∨ ∃ t, r = .mismatch t ∧ later t u x)
      (Outcome.orRetry start f r).state := by
  cases r with
  | mismatch t =>
    refine (h.trans (hf t rfl)).congr fun u x => or_congr_right ⟨?_, fun hl => ⟨t, rfl, hl⟩⟩
    rintro ⟨_, ⟨⟩, hl⟩
    exact hl
  | value b t | abort a t =>
    refine h.congr fun u x => or_iff_left ?_
    rintro ⟨_, ⟨⟩, -⟩

theorem report_mapState {r : Outcome α} {f : State → State} (hf : ∀ t, (f t).report = t.report) :
    (r.mapState f).state.report = r.state.report := by
  cases r <;> exact hf _

theorem report_note (s : State) (expectation : String) :
    (s.note expectation).report = s.report.add (s.miss expectation) :=
  note_report s.furthest (s.miss expectation) s.rules

open Grammar in
/-- A loop that goes on only if it takes something tells all of its rounds. -/
theorem iterate_tells {state : σ} {step : σ → Grammar (σ ⊕ α)}
    (hgo : ∀ state, (step state).GoesOn) (bound : List Char) (hs : s.In source)
    (hbound : s.cursor.rest.length ≤ bound.length)
    (hstep : ∀ state t, t.In source → Tells t ((step state).Misses settings n t)
      ((step state).run settings (callWithin Rule.body settings n) t).state) :
    Tells s ((iterate state step).Misses settings n s)
      (iterateWithin (fun state t => (step state).run settings (callWithin Rule.body settings n) t)
        bound state s).state := by
  have hrounds : ∀ state s u y, (iterate state step).Misses settings n s u y ↔
      (step state).Misses settings n s u y ∨ ∃ x t,
        (step state).run settings (callWithin Rule.body settings n) s = .value x t ∧
        x.elim (fun next => (iterate next step).Misses settings n t u y) fun _ => False := by
    intro state s u y
    rw [Misses, happens_iterate]
    simp only [Misses, reduceCtorEq, false_or, Sum.exists, Sum.elim_inl, Sum.elim_inr, and_false,
      exists_false, or_false]
  induction bound generalizing state s with
  | nil =>
    rw [iterateWithin_step]
    refine (tells_andThen (hstep state s hs) fun x t hx => ?_).congr (hrounds state s)
    cases x with
    | inl next =>
      have hshort := hgo state _ _ _ (run_value hs hx).1
      exact absurd hbound (by simp only [List.length_nil]; omega)
    | inr a => exact .nothing rfl fun _ _ => id
  | cons _ bound ih =>
    rw [iterateWithin_step]
    refine (tells_andThen (hstep state s hs) fun x t hx => ?_).congr (hrounds state s)
    cases x with
    | inl next =>
      obtain ⟨hread, ht⟩ := run_value hs hx
      have hshort := hgo state _ _ _ hread
      rw [List.length_cons] at hbound
      exact ih ht (by omega)
    | inr a => exact .nothing rfl fun _ _ => id

/-- A run tells what is missed in it if the rules that it calls do. -/
theorem run_tells_of {g : Grammar α} (hs : s.In source) (hg : g.Advances)
    (hcalls : ∀ (rule : Rule) (t : State), t.In source →
      Tells t ((Grammar.call rule).Misses settings n t)
        (callWithin Rule.body settings n rule t).state) :
    Tells s (g.Misses settings n s)
      (g.run settings (callWithin Rule.body settings n) s).state := by
  induction g generalizing s with
  | bind first next ihf ihn =>
    rw [run_bind]
    exact (tells_andThen (ihf hs hg.1) fun b t hr => ihn b (run_value hs hr).2 (hg.2 b)).congr
      fun _ _ => Grammar.happens_bind
  | orElse first second ihf ihs =>
    refine (tells_orRetry (ihf hs hg.1) fun t hr => ?_).congr fun _ _ => Grammar.happens_orElse
    exact (ihs (hs.moveTo (run_mismatch hs hr).2) hg.2).report_eq rfl rfl
  | call rule => exact hcalls rule s hs
  | nested body ih =>
    rw [Grammar.run, nestedWithin]
    split
    · rename_i hadmits
      refine ((ih (hs.withDepth (s.depth + 1)) hg).report_eq rfl ?_).congr fun u x => ?_
      · exact report_mapState fun _ => rfl
      · rw [Grammar.Misses, Grammar.happens_nested]
        exact (or_iff_left fun h => Bool.noConfusion (h.1.symm.trans hadmits)).trans
          (and_iff_right hadmits)
    · rename_i hrefused
      refine .nothing rfl fun u x h => ?_
      obtain ⟨hadmits, -⟩ | ⟨-, he⟩ := Grammar.happens_nested.mp h
      · exact hrefused hadmits
      · cases he
  | iterate state step ih =>
    exact iterate_tells (fun state => (hg state).2) _ hs (Nat.le_refl _)
      fun state t ht => ih state ht (hg state).1
  | fail expectation =>
    refine ⟨[(s, expectation)], report_note s expectation, fun u x => ?_⟩
    rw [List.mem_singleton, Prod.mk.injEq, Grammar.Misses, Grammar.happens_fail,
      Event.miss.injEq]
  | accept literal =>
    refine .nothing ?_ fun u x h => ?_
    · rw [Grammar.run]
      split <;> rfl
    · obtain ⟨e, hp, -⟩ := Grammar.happens_iff.mp h
      exact hp.direct
  | pure | advance | mismatch =>
    refine .nothing rfl fun u x h => ?_
    obtain ⟨e, hp, -⟩ := Grammar.happens_iff.mp h
    exact hp.direct
  | look => exact .nothing rfl fun u x h => by cases Grammar.happens_look.mp h
  | abort => exact .nothing rfl fun u x h => by cases Grammar.happens_abort.mp h

/-- Recalling a rule tells nothing. -/
theorem recallRule_report {rule : Rule} (body : State → Outcome rule.Result)
    (h : settings.recalls rule s = true) :
    (recallRule settings rule body s).state.report = s.report := by
  simp only [Settings.recalls, Bool.and_eq_true] at h
  obtain ⟨hm, hk⟩ := h
  obtain ⟨entry, he⟩ := Option.isSome_iff_exists.mp hk
  rw [recallRule, hm, if_pos rfl, he]
  cases entry <;> rfl

theorem runRule_report {rule : Rule} {body : State → Outcome rule.Result} :
    (runRule settings rule body s).state.report = (body (s.enter rule)).state.report := by
  rw [runRule]
  cases body (s.enter rule) <;> cases settings.memoize <;> rfl

theorem callWithin_tells (rule : Rule) (hs : s.In source) :
    Tells s ((Grammar.call rule).Misses settings n s)
      (callWithin Rule.body settings n rule s).state := by
  induction n generalizing rule s with
  | zero =>
    exact .nothing rfl fun u x h => by cases Grammar.happens_call_zero.mp h
  | succ n ih =>
    rw [callWithin]
    cases hr : settings.recalls rule s with
    | true =>
      refine .nothing (recallRule_report _ hr) fun u x h => ?_
      obtain he | ⟨hfresh, -⟩ := Grammar.happens_call.mp h
      · cases he
      · exact Bool.noConfusion (hr.symm.trans hfresh)
    | false =>
      rw [recallRule_fresh hr]
      have hbody : Tells _ _ (rule.body.run settings _ _).state :=
        run_tells_of (hs.enter rule) (body_advances rule) fun rule t ht => ih rule ht
      refine (hbody.report_eq rfl runRule_report).congr fun u x => ?_
      rw [Grammar.Misses, Grammar.happens_call]
      simp only [reduceCtorEq, false_or, hr, true_and, Grammar.Misses]

/-- A run adds the alternatives that give up during it to the report, and nothing else. -/
theorem run_tells {g : Grammar α} (hs : s.In source) (hg : g.Advances) :
    Tells s (g.Misses settings n s)
      (g.run settings (callWithin Rule.body settings n) s).state :=
  run_tells_of hs hg fun rule _ ht => callWithin_tells rule ht

end Runs

/-! ## What does not match -/

namespace Account

/-- What does not match has missed something. -/
def Notes (A : Account α) : Prop := ∀ stop, A.ending = .mismatch stop → A.misses ≠ []

theorem Notes.after {A : Account α} (h : A.Notes) (earlier : List Miss) :
    (A.after earlier).Notes :=
  fun stop he => List.append_ne_nil_of_right_ne_nil _ (h stop he)

theorem Notes.bind {A : Account β} {f : β → Cursor → Account α} (h : A.Notes)
    (hf : ∀ b c, (f b c).Notes) : (A.bind f).Notes := by
  unfold Account.bind
  cases he : A.ending with
  | value b c => exact (hf b c).after _
  | mismatch c => exact fun _ _ => h c he
  | abort a c => exact fun _ he' => by cases he'

theorem Notes.orElse {A B : Account α} (h : A.Notes ∨ B.Notes) : (A.orElse B).Notes := by
  unfold Account.orElse
  cases he : A.ending with
  | mismatch c =>
    obtain h | h := h
    · exact fun _ _ => List.append_ne_nil_of_left_ne_nil (h c he) _
    · exact h.after _
  | value b c => exact fun _ he' => by cases he.symm.trans he'
  | abort a c => exact fun _ he' => by cases he.symm.trans he'

theorem Notes.iterateWithin {step : σ → Cursor → Account (σ ⊕ α)}
    (h : ∀ state c, (step state c).Notes) (bound : List Char) (state : σ) (c : Cursor) :
    (Account.iterateWithin step bound state c).Notes := by
  induction bound generalizing state c with
  | nil =>
    unfold Account.iterateWithin
    refine (h state c).bind fun x c => ?_
    cases x <;> exact fun _ he => by cases he
  | cons _ bound ih =>
    unfold Account.iterateWithin
    refine (h state c).bind fun x c => ?_
    cases x with
    | inl next => exact ih next c
    | inr a => exact fun _ he => by cases he

end Account

namespace Grammar

/-- A part of a grammar that does not match has missed something. -/
def Notes (g : Grammar α) : Prop := ∀ n c, (g.account (readWithin Rule.body n) c).Notes

theorem Notes.bind {first : Grammar β} {next : β → Grammar α} (h : first.Notes)
    (hn : ∀ b, (next b).Notes) : (first >>= next).Notes :=
  fun n c => (h n c).bind fun b c => hn b n c

theorem Notes.iterate {step : σ → Grammar (σ ⊕ α)} (h : ∀ state, (step state).Notes)
    (state : σ) : (iterate state step).Notes :=
  fun n c => .iterateWithin (fun state c => h state n c) _ state c

theorem notes_pure (a : α) : (Pure.pure a : Grammar α).Notes :=
  fun _ _ _ he => by cases he

theorem notes_fail (expectation : String) : (fail expectation : Grammar α).Notes :=
  fun _ _ _ _ => List.cons_ne_nil _ _

/-- One alternative that notes something is enough. -/
theorem Notes.choice {alternatives : List (Grammar α)} {g : Grammar α} (h : g.Notes)
    (hg : g ∈ alternatives) : (choice alternatives).Notes := by
  induction alternatives with
  | nil => cases hg
  | cons g' rest ih =>
    cases hg with
    | head => exact fun n c => .orElse (.inl (h n c))
    | tail _ hg => exact fun n c => .orElse (.inr (ih hg n c))

theorem notes_optional? (part : Grammar α) : (optional? part).Notes :=
  fun n c => .orElse (.inr (notes_pure none n c))

theorem notes_foldMany (part : Grammar α) (f : σ → α → σ) (start : σ) :
    (foldMany part f start).Notes :=
  .iterate (fun _ => (notes_optional? part).bind fun value? => by cases value? <;> exact notes_pure _)
    start

theorem notes_look (view : List Char → α) : (look view).Notes :=
  fun _ _ _ he => by cases he

theorem notes_advance (count : Nat) : (advance count).Notes :=
  fun _ _ _ he => by cases he

theorem notes_abort (fault : Fault) (back : Nat) : (abort fault back : Grammar α).Notes :=
  fun _ _ _ he => by cases he

theorem notes_whitespace : whitespace.Notes := by
  refine (notes_look _).bind fun extent => (notes_advance _).bind fun _ => ?_
  split
  · exact (notes_look _).bind fun _ => (notes_advance _).bind fun _ => notes_abort _ _
  · exact notes_pure _

theorem notes_digits : digits.Notes := by
  refine .bind ((notes_look _).bind fun _ => (notes_advance _).bind fun _ => notes_pure _)
    fun run => ?_
  split
  · exact notes_fail _
  · exact notes_pure _

theorem notes_call {rule : Rule} (h : rule.body.Notes) : (call rule).Notes := by
  intro n c stop he
  cases n with
  | zero => cases he
  | succ n =>
    simp only [Grammar.account, readWithin, Account.within] at he ⊢
    cases hb : (rule.body.account (readWithin Rule.body n) c).ending with
    | mismatch stop => simpa using h n c stop hb
    | value a stop => rw [hb] at he; cases he
    | abort a stop => rw [hb] at he; cases he

/-- One way to an operand, through a natural number, notes something wherever it ends. -/
theorem notes_importExpression : (call .importExpression).Notes := by
  have hnatural : (call .naturalLiteral).Notes := notes_call (notes_digits.bind fun _ => notes_pure _)
  have hprimitive : (call .primitiveExpression).Notes :=
    notes_call ((hnatural.bind fun _ => notes_pure _).choice (.tail _ (.head _)))
  have hselector : (call .selectorExpression).Notes :=
    notes_call (hprimitive.bind fun _ => notes_foldMany _ _ _)
  exact notes_call (hselector.choice (.tail _ (.head _)))

theorem notes_applicationExpression : (call .applicationExpression).Notes := by
  have hfirst : (call .firstApplicationExpression).Notes :=
    notes_call (notes_importExpression.choice (by simp))
  exact notes_call (hfirst.bind fun _ => notes_foldMany _ _ _)

theorem notes_expression : (call .expression).Notes := by
  have hoperator : (call .operatorExpression).Notes :=
    notes_call (notes_applicationExpression.bind fun _ => (notes_foldMany _ _ _).bind fun _ =>
      notes_pure _)
  have hannotated : (call .annotatedExpression).Notes :=
    notes_call (hoperator.bind fun _ => (notes_optional? _).bind fun type? => by
      cases type? <;> exact notes_pure _)
  exact notes_call fun n c => hannotated.choice (by simp) n c

theorem notes_leadingExpression : leadingExpression.Notes :=
  notes_whitespace.bind fun _ => notes_expression

theorem notes_completeExpression : completeExpression.Notes :=
  notes_whitespace.bind fun _ => notes_expression.bind fun _ => notes_whitespace.bind fun _ =>
    notes_pure _

/-- A run that does not match leaves a report. -/
theorem Notes.report_ne_none {g : Grammar α} {s t : State} (hg : g.Notes) (hs : s.In source)
    (h : g.run settings (callWithin Rule.body settings n) s = .mismatch t) : t.report ≠ none := by
  obtain ⟨-, ⟨-, _, _, _, hr, -⟩ | ⟨⟨_, _, hr, -⟩, -⟩ | ⟨k, -, -, hr⟩⟩ :=
    (run_accounted (callWithin_accounted n) g s hs.sound : Accounted Rule.body source settings n
      _ s (g.run settings (callWithin Rule.body settings n) s))
  · rw [h] at hr
    cases hr
  · rw [h] at hr
    cases hr
  · rw [h] at hr
    obtain ⟨he, halike⟩ := Account.alike_mismatch hr
    have hmisses := hg k s.cursor _ he
    obtain ⟨m, hm⟩ := List.exists_mem_of_ne_nil _ hmisses
    obtain ⟨_, _, hreport, -⟩ := Report.covers_addAll s.report hm
    rw [← halike.report, Account.stateAfter_report, hreport]
    exact Option.some_ne_none _

end Grammar

/-! ## The furthest failure -/

/-- What a state says of the furthest failure if these alternatives gave up on the way to it. -/
structure Furthest.Of (missed : State → String → Prop) (f : Furthest) : Prop where
  furthest : ∀ u x, missed u x → u.cursor.offset ≤ f.offset
  nonempty : f.expected ≠ []
  nodup : f.expected.Nodup
  expected : ∀ x, x ∈ f.expected ↔ ∃ u, missed u x ∧ u.cursor.offset = f.offset

/-- The furthest failure after a run from the beginning is that of the alternatives that gave up
during the run. -/
theorem furthest_of_start {g : Grammar α} {f : Furthest} (hg : g.Advances)
    (h : (g.start settings (.initial source)).state.furthest = some f) :
    f.Of (g.Misses settings settings.stack (.initial source)) := by
  have htells : Tells _ _ (g.start settings (.initial source)).state :=
    run_tells (State.In.initial source) hg
  obtain ⟨misses, hr, hm⟩ := htells
  have hsummary := Report.addAll_summarizes (misses.map fun m => m.1.miss m.2)
  have hreport : (some (f.offset, f.expected) : Report) =
      Report.addAll none (misses.map fun m => m.1.miss m.2) :=
    (congrArg (Option.map _) h).symm.trans hr
  rw [← hreport] at hsummary
  refine ⟨fun u x hx => hsummary.1 _ (List.mem_map_of_mem ((hm u x).mpr hx)), hsummary.ne_nil,
    hsummary.nodup, fun x => ?_⟩
  rw [hsummary.mem_iff]
  constructor
  · rintro ⟨_, hin, hoffset, rfl⟩
    obtain ⟨⟨u, x⟩, hux, rfl⟩ := List.mem_map.mp hin
    exact ⟨u, (hm u x).mp hux, hoffset⟩
  · rintro ⟨u, hx, hoffset⟩
    exact ⟨u.miss x, List.mem_map_of_mem ((hm u x).mpr hx), hoffset, rfl⟩

end DhallSyntax
