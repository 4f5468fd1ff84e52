import DhallSyntax.Proofs.Grammar.Faults
import DhallSyntax.Proofs.Reading.Parse
import DhallSyntax.Proofs.Reading.Parts

/-!
Runs that do not end the parse. What a part of a grammar reads is known; that its run gets there
needs enough levels for the rules inside each other and for nested expressions. Main statements:

* `run_callFree`: a part that calls no rule does what it reads and leaves the memo alone;
* `Steady.run`: a steady part does not end the parse, and keeps what storing outcomes at free
  places keeps.
-/

namespace DhallSyntax

variable {α β σ : Type} {settings : Settings} {source : List Char} {s : State} {n : Nat}

/-- The outcome ends the parse. -/
def Outcome.IsAbort : Outcome α → Prop
  | abort _ _ => True
  | _ => False

/-- A state at a place of a source, with a sound memo. -/
structure State.In (source : List Char) (s : State) : Prop where
  sound : s.Sound Rule.body source
  within : s.cursor.isBeyond = false

namespace State.In

theorem rest_eq (h : s.In source) : s.cursor.rest = source.drop s.cursor.offset := by
  have hplace : s.cursor = .atOffset source s.cursor.offset := h.sound.place
  exact congrArg Cursor.rest hplace

theorem offset_le (h : s.In source) : s.cursor.offset ≤ source.length := by
  have hplace : s.cursor = .atOffset source s.cursor.offset := h.sound.place
  have hb : decide (source.length < s.cursor.offset) = false :=
    (congrArg Cursor.isBeyond hplace).symm.trans h.within
  exact Nat.le_of_not_lt (of_decide_eq_false hb)

theorem offset_add (h : s.In source) :
    s.cursor.offset + s.cursor.rest.length = source.length := by
  have hle := h.offset_le
  rw [h.rest_eq, List.length_drop]
  omega

/-- Back at the place of another state. -/
theorem moveTo {t : State} (h : s.In source) (ht : t.Sound Rule.body source) :
    (t.moveTo s.cursor).In source :=
  ⟨ht.moveTo h.sound.place, h.within⟩

theorem enter (h : s.In source) (rule : Rule) : (s.enter rule).In source :=
  ⟨h.sound.enter rule, h.within⟩

theorem withDepth (h : s.In source) (depth : Nat) : (s.withDepth depth).In source :=
  ⟨h.sound.withDepth depth, h.within⟩

end State.In

/-! ## What a run reads -/

section Reads

variable {g : Grammar α}

theorem run_sound (settings : Settings) (hs : s.In source) (n : Nat) (g : Grammar α) :
    (g.run settings (callWithin Rule.body settings n) s).state.Sound Rule.body source :=
  (run_accounted (callWithin_accounted n) g s hs.sound).sound

theorem run_value (hs : s.In source) {a : α} {t : State}
    (h : g.run settings (callWithin Rule.body settings n) s = .value a t) :
    g.read s.cursor.rest = .value a t.cursor.rest ∧ t.In source := by
  have hsound := run_sound settings hs n g
  rw [h] at hsound
  obtain ⟨_, _, _, hr, -⟩ | ⟨_, _, hr, -⟩ | ⟨he, hw⟩ :=
    run_endsAs settings hs.sound hs.within n g
  · rw [h] at hr
    cases hr
  · rw [h] at hr
    cases hr
  · rw [h] at he hw
    exact ⟨he, hsound, hw⟩

theorem run_mismatch (hs : s.In source) {t : State}
    (h : g.run settings (callWithin Rule.body settings n) s = .mismatch t) :
    g.read s.cursor.rest = .mismatch ∧ t.Sound Rule.body source := by
  have hsound := run_sound settings hs n g
  rw [h] at hsound
  obtain ⟨_, _, _, hr, -⟩ | ⟨_, _, hr, -⟩ | ⟨he, -⟩ :=
    run_endsAs settings hs.sound hs.within n g
  · rw [h] at hr
    cases hr
  · rw [h] at hr
    cases hr
  · rw [h] at he
    exact ⟨he, hsound⟩

end Reads

/-! ## Parts that call no rule -/

/-- The outcome of a run that does what it reads and leaves the memo alone. -/
structure Outcome.Plain (s : State) (q : Reading α) (r : Outcome α) : Prop where
  ends : r.EndsAs q
  within : r.state.cursor.isBeyond = false
  memo : r.state.memo = s.memo

theorem Outcome.Plain.andThen {q : Reading β} {r : Outcome β} {next : β → List Char → Reading α}
    {f : β → State → Outcome α} (h : r.Plain s q)
    (hf : ∀ b t, t.cursor.isBeyond = false → (f b t).Plain t (next b t.cursor.rest)) :
    (r.andThen f).Plain s (q.bind next) := by
  obtain ⟨he, hw, hm⟩ := h
  cases r with
  | value b t =>
    obtain rfl : q = .value b t.cursor.rest := he
    obtain ⟨he', hw', hm'⟩ := hf b t hw
    exact ⟨he', hw', hm'.trans hm⟩
  | mismatch t =>
    obtain rfl : q = .mismatch := he
    exact ⟨rfl, hw, hm⟩
  | abort a t =>
    obtain rfl : q = .abort a.fault := he
    exact ⟨rfl, hw, hm⟩

theorem iterateWithin_plain {run : σ → State → Outcome (σ ⊕ α)}
    {step : σ → List Char → Reading (σ ⊕ α)}
    (h : ∀ state s, s.cursor.isBeyond = false → (run state s).Plain s (step state s.cursor.rest))
    (bound : List Char) (state : σ) (s : State) (hs : s.cursor.isBeyond = false) :
    (iterateWithin run bound state s).Plain s (.iterateWithin step bound state s.cursor.rest) := by
  induction bound generalizing state s with
  | nil =>
    rw [iterateWithin_step, Reading.iterateWithin]
    refine (h state s hs).andThen fun x t ht => ?_
    cases x with
    | inl next => exact ⟨rfl, ht, rfl⟩
    | inr a => exact ⟨rfl, ht, rfl⟩
  | cons _ bound ih =>
    rw [iterateWithin_step, Reading.iterateWithin]
    refine (h state s hs).andThen fun x t ht => ?_
    cases x with
    | inl next => exact ih next t ht
    | inr a => exact ⟨rfl, ht, rfl⟩

/-- Whatever calls do, a part without any does what it reads. -/
theorem run_callFree (settings : Settings) (caller : Caller) (rules : RuleReader) (g : Grammar α)
    (hg : g.CallFree) (s : State) (hs : s.cursor.isBeyond = false) :
    (g.run settings caller s).Plain s (g.readBy rules s.cursor.rest) := by
  induction g generalizing s with
  | bind first next ihf ihn =>
    rw [run_bind]
    exact (ihf hg.1 s hs).andThen fun b t ht => ihn b (hg.2 b) t ht
  | orElse first second ihf ihs =>
    obtain ⟨he, hw, hm⟩ := ihf hg.1 s hs
    rw [Grammar.run, Grammar.readBy]
    cases hr : first.run settings caller s with
    | value a t =>
      rw [hr] at he hw hm
      have he : first.readBy rules s.cursor.rest = .value a t.cursor.rest := he
      rw [he]
      exact ⟨rfl, hw, hm⟩
    | mismatch t =>
      rw [hr] at he hm
      have he : first.readBy rules s.cursor.rest = .mismatch := he
      obtain ⟨he', hw', hm'⟩ := ihs hg.2 (t.moveTo s.cursor) hs
      rw [he]
      exact ⟨he', hw', hm'.trans hm⟩
    | abort a t =>
      rw [hr] at he hw hm
      have he : first.readBy rules s.cursor.rest = .abort a.fault := he
      rw [he]
      exact ⟨rfl, hw, hm⟩
  | call rule =>
    obtain ⟨fault, hf⟩ := hg
    cases hf
  | nested body ih =>
    obtain ⟨⟨fault, hf⟩, -⟩ := hg
    cases hf
  | iterate state step ih =>
    exact iterateWithin_plain (fun state s hs => ih state (hg state) s hs) _ state s hs
  | accept literal =>
    have hnext : s.cursor.isNext literal = literal.toList.isPrefixOf s.cursor.rest := by
      rw [Cursor.isNext, hs, Bool.not_false, Bool.true_and]
    rw [Grammar.run, Grammar.readBy, hnext]
    split
    · exact ⟨rfl, hs, rfl⟩
    · exact ⟨rfl, hs, rfl⟩
  | _ => exact ⟨rfl, hs, rfl⟩

/-! ## Steady runs -/

/-- How a part of a grammar ends at a text: with a value and what is left, or without a match. -/
abbrev Place (α : Type) := Option (α × List Char)

def Place.reading : Place α → Reading α
  | some (a, u) => .value a u
  | none => .mismatch

theorem Place.reading_ne_abort (r : Place α) (fault : Fault) : r.reading ≠ .abort fault := by
  cases r <;> exact fun h => by cases h

/-- A part of a grammar, or a repetition that is under way. -/
inductive Part : Type → Type 1 where
  | term {α : Type} (g : Grammar α) : Part α
  | loop {α σ : Type} (step : σ → Grammar (σ ⊕ α)) (state : σ) : Part α

namespace Part

/-- Runs a part, or what is left of a repetition. -/
def run (settings : Settings) (caller : Caller) {α : Type} :
    Part α → (bound : List Char) → State → Outcome α
  | term g, _, s => g.run settings caller s
  | loop step state, bound, s =>
    iterateWithin (fun state s => (step state).run settings caller s) bound state s

/-- What a part makes of a text. A repetition does so with any bound that is long enough. -/
def Ends (t : List Char) (r : Place α) : Part α → Prop
  | term g => g.read t = r.reading
  | loop step state => ∀ bound : List Char, t.length ≤ bound.length →
      Reading.iterateWithin (fun state s => (step state).read s) bound state t = r.reading

end Part

/-- What is around a steady run: the places where outcomes may be stored, the bound on nested
expressions, and calls that are known to end well with so much stack. -/
structure Surroundings where
  free : List Char → Prop
  bound : Nat
  stack : Nat
  inner : Nat → (rule : Rule) → List Char → Place rule.Result → Prop
  reads : ∀ {depth : Nat} {rule : Rule} {t : List Char} {r : Place rule.Result},
    inner depth rule t r → rule.read t = r.reading

/-- Only looking around, without opening an expression. -/
def Surroundings.bare : Surroundings where
  free _ := True
  bound := 0
  stack := 0
  inner _ _ _ _ := False
  reads := False.elim

/-- A part of a grammar at a text, so many levels of rules above the calls that are known, and so
many expressions deep: it ends in one way, and no way through it ends the parse. -/
inductive Steady (S : Surroundings) : (levels depth : Nat) → {α : Type} → Part α → List Char →
    Place α → Prop where
  | plain {levels depth : Nat} {α : Type} {g : Grammar α} {t : List Char} {r : Place α} :
      g.CallFree → g.read t = r.reading → Steady S levels depth (.term g) t r
  | bind {levels depth : Nat} {α β : Type} {first : Grammar β} {next : β → Grammar α}
      {t u : List Char} {b : β} {r : Place α} :
      Steady S levels depth (.term first) t (some (b, u)) →
      Steady S levels depth (.term (next b)) u r →
      Steady S levels depth (.term (.bind first next)) t r
  | miss {levels depth : Nat} {α β : Type} {first : Grammar β} {next : β → Grammar α}
      {t : List Char} : Steady S levels depth (.term first) t none →
      Steady S levels depth (.term (.bind first next)) t none
  | left {levels depth : Nat} {α : Type} {first second : Grammar α} {t u : List Char} {a : α} :
      Steady S levels depth (.term first) t (some (a, u)) →
      Steady S levels depth (.term (.orElse first second)) t (some (a, u))
  | right {levels depth : Nat} {α : Type} {first second : Grammar α} {t : List Char}
      {r : Place α} : Steady S levels depth (.term first) t none →
      Steady S levels depth (.term second) t r →
      Steady S levels depth (.term (.orElse first second)) t r
  | call {levels depth : Nat} {rule : Rule} {t : List Char} {r : Place rule.Result} : S.free t →
      Steady S levels depth (.term rule.body) t r →
      Steady S (levels + 1) depth (.term (.call rule)) t r
  | nested {levels depth : Nat} {α : Type} {g : Grammar α} {t : List Char} {r : Place α} :
      depth + 1 ≤ S.bound → Steady S levels (depth + 1) (.term g) t r →
      Steady S levels depth (.term (.nested g)) t r
  | iterate {levels depth : Nat} {α σ : Type} {state : σ} {step : σ → Grammar (σ ⊕ α)}
      {t : List Char} {r : Place α} : Steady S levels depth (.loop step state) t r →
      Steady S levels depth (.term (.iterate state step)) t r
  | last {levels depth : Nat} {α σ : Type} {state : σ} {step : σ → Grammar (σ ⊕ α)}
      {t u : List Char} {a : α} : Steady S levels depth (.term (step state)) t (some (.inr a, u)) →
      Steady S levels depth (.loop step state) t (some (a, u))
  | next {levels depth : Nat} {α σ : Type} {state state' : σ} {step : σ → Grammar (σ ⊕ α)}
      {t u : List Char} {r : Place α} :
      Steady S levels depth (.term (step state)) t (some (.inl state', u)) → u.length < t.length →
      Steady S levels depth (.loop step state') u r → Steady S levels depth (.loop step state) t r
  | inner {levels depth : Nat} {rule : Rule} {t : List Char} {r : Place rule.Result} :
      S.inner depth rule t r → Steady S levels depth (.term (.call rule)) t r

section Steady

variable {S : Surroundings} {levels levels' depth : Nat} {t : List Char}

/-- More levels do no harm. -/
theorem Steady.mono {p : Part α} {r : Place α} (h : Steady S levels depth p t r)
    (hl : levels ≤ levels') : Steady S levels' depth p t r := by
  induction h generalizing levels' with
  | plain hg hr => exact .plain hg hr
  | bind _ _ ihf ihn => exact .bind (ihf hl) (ihn hl)
  | miss _ ih => exact .miss (ih hl)
  | left _ ih => exact .left (ih hl)
  | right _ _ ihf ihs => exact .right (ihf hl) (ihs hl)
  | call hf _ ih =>
    obtain ⟨k, rfl⟩ := Nat.exists_eq_add_of_le hl
    rw [Nat.succ_add]
    exact .call hf (ih (Nat.le_add_right _ k))
  | nested hd _ ih => exact .nested hd (ih hl)
  | iterate _ ih => exact .iterate (ih hl)
  | last _ ih => exact .last (ih hl)
  | next _ hlt _ ihs ihn => exact .next (ihs hl) hlt (ihn hl)
  | inner hi => exact .inner hi

theorem Steady.ends {p : Part α} {r : Place α} (h : Steady S levels depth p t r) :
    p.Ends t r := by
  induction h with
  | plain _ hr => exact hr
  | bind _ _ ihf ihn =>
    simp only [Part.Ends, Grammar.read] at ihf ihn ⊢
    rw [Grammar.readBy, ihf]
    exact ihn
  | miss _ ih =>
    simp only [Part.Ends, Grammar.read] at ih ⊢
    rw [Grammar.readBy, ih]
    rfl
  | left _ ih =>
    simp only [Part.Ends, Grammar.read] at ih ⊢
    rw [Grammar.readBy, ih]
    rfl
  | right _ _ ihf ihs =>
    simp only [Part.Ends, Grammar.read] at ihf ihs ⊢
    rw [Grammar.readBy, ihf]
    exact ihs
  | call _ _ ih => exact (Rule.read_eq ..).trans ih
  | nested _ _ ih => exact ih
  | iterate _ ih => exact ih _ (Nat.le_refl _)
  | last _ ih =>
    intro bound _
    have ih : _ = Reading.value _ _ := ih
    rw [Reading.iterateWithin, ih]
    rfl
  | next _ hlt _ ihs ihn =>
    intro bound hb
    obtain ⟨c, bound, rfl⟩ := List.exists_cons_of_length_pos
      (Nat.lt_of_lt_of_le (Nat.zero_lt_of_lt hlt) hb)
    rw [List.length_cons] at hb
    have ihs : _ = Reading.value _ _ := ihs
    rw [Reading.iterateWithin, ihs]
    exact ihn bound (by omega)
  | inner hi => exact S.reads hi

theorem Steady.read {g : Grammar α} {r : Place α} (h : Steady S levels depth (.term g) t r) :
    g.read t = r.reading :=
  h.ends

end Steady

/-- A rule that is taken from the memo does not end the parse and stores nothing. -/
theorem recallRule_recalled {rule : Rule} (body : State → Outcome rule.Result)
    (h : settings.recalls rule s = true) :
    ¬ (recallRule settings rule body s).IsAbort ∧
      (recallRule settings rule body s).state.memo = s.memo := by
  simp only [Settings.recalls, Bool.and_eq_true] at h
  obtain ⟨hm, hk⟩ := h
  obtain ⟨entry, he⟩ := Option.isSome_iff_exists.mp hk
  rw [recallRule, hm, if_pos rfl, he]
  cases entry with
  | matched a stop => exact ⟨id, rfl⟩
  | failed => exact ⟨id, rfl⟩

theorem Outcome.isAbort_mapState {r : Outcome α} {f : State → State} :
    (r.mapState f).IsAbort ↔ r.IsAbort := by
  cases r <;> exact .rfl

theorem runRule_isAbort {rule : Rule} {body : State → Outcome rule.Result} :
    (runRule settings rule body s).IsAbort ↔ (body (s.enter rule)).IsAbort := by
  rw [runRule]
  cases body (s.enter rule) <;> exact .rfl

/-- The memo behind a rule that was run afresh: that of its body, with the outcome of the rule if
outcomes are kept. -/
theorem runRule_memo {rule : Rule} {body : State → Outcome rule.Result}
    (h : ¬ (runRule settings rule body s).IsAbort) :
    (settings.memoize = false ∧
      (runRule settings rule body s).state.memo = (body (s.enter rule)).state.memo) ∨
    (settings.memoize = true ∧ ∃ entry,
      (runRule settings rule body s).state.memo =
        (body (s.enter rule)).state.memo.insert (rule, s.cursor.offset) entry) := by
  rw [runRule_isAbort] at h
  rw [runRule]
  cases hb : body (s.enter rule) with
  | value a t =>
    cases hm : settings.memoize with
    | false => exact .inl ⟨rfl, rfl⟩
    | true => exact .inr ⟨rfl, _, rfl⟩
  | mismatch t =>
    cases hm : settings.memoize with
    | false => exact .inl ⟨rfl, rfl⟩
    | true => exact .inr ⟨rfl, _, rfl⟩
  | abort a t =>
    rw [hb] at h
    exact absurd trivial h

theorem Outcome.EndsAs.not_isAbort {q : Outcome α} {r : Reading α} (h : q.EndsAs r)
    (hr : ∀ fault, r ≠ .abort fault) : ¬ q.IsAbort := by
  cases q with
  | abort a t => exact absurd h (hr a.fault)
  | _ => exact id

/-- How a steady run ends: with enough levels it does not end the parse, and unless it does so it
keeps a property of the memo. -/
structure Outcome.Steadily (enough : Prop) (K : Memo → Prop) (r : Outcome α) : Prop where
  keeps : ¬ r.IsAbort → K r.state.memo
  goesOn : enough → ¬ r.IsAbort

namespace Outcome.Steadily

variable {enough : Prop} {K : Memo → Prop}

theorem value {a : α} {t : State} (h : K t.memo) : (value a t).Steadily enough K :=
  ⟨fun _ => h, fun _ => id⟩

theorem andThen {r : Outcome β} {f : β → State → Outcome α} (h : r.Steadily enough K)
    (hf : ∀ b t, r = .value b t → K t.memo → (f b t).Steadily enough K) :
    (r.andThen f).Steadily enough K := by
  cases r with
  | value b t => exact hf b t rfl (h.keeps id)
  | mismatch t => exact ⟨h.keeps, h.goesOn⟩
  | abort a t => exact ⟨fun hn => absurd trivial hn, h.goesOn⟩

theorem orRetry {r : Outcome α} {start : Cursor} {f : State → Outcome α}
    (h : r.Steadily enough K)
    (hf : ∀ t, r = .mismatch t → K t.memo → (f (t.moveTo start)).Steadily enough K) :
    (orRetry start f r).Steadily enough K := by
  cases r with
  | value b t => exact h
  | mismatch t => exact hf t rfl (h.keeps id)
  | abort a t => exact h

theorem mapState {r : Outcome α} {f : State → State} (h : r.Steadily enough K)
    (hf : ∀ t, (f t).memo = t.memo) : (r.mapState f).Steadily enough K := by
  have hmemo : (r.mapState f).state.memo = r.state.memo := by cases r <;> exact hf _
  refine ⟨fun hn => ?_, fun he => (not_congr isAbort_mapState).mpr (h.goesOn he)⟩
  exact hmemo ▸ h.keeps ((not_congr isAbort_mapState).mp hn)

end Outcome.Steadily

/-- A property of memos that steady runs keep. -/
structure Surroundings.Keeps (S : Surroundings) (settings : Settings) (source : List Char)
    (K : Memo → Prop) : Prop where
  admits : ∀ depth ≤ S.bound, settings.admits depth = true
  store : ∀ (memo : Memo) (rule : Rule) (offset : Nat) (entry : MemoEntry rule),
    offset ≤ source.length → S.free (source.drop offset) → K memo →
      K (memo.insert (rule, offset) entry)
  inner : ∀ n rule (s : State) (r : Place rule.Result), s.In source →
    S.inner s.depth rule s.cursor.rest r → K s.memo →
    (callWithin Rule.body settings n rule s).Steadily (S.stack ≤ n) K

theorem run_depth_eq (settings : Settings) (n : Nat) (g : Grammar α) (s : State) :
    (g.run settings (callWithin Rule.body settings n) s).state.depth = s.depth :=
  run_depth (callWithin_depth Rule.body settings n) g s

/-- A steady part with a value runs to where it ends, unless it ends the parse. -/
theorem Steady.run_value {S : Surroundings} {levels depth : Nat} {g : Grammar α}
    {t v : List Char} {b c : α} {u : State} (h : Steady S levels depth (.term g) t (some (b, v)))
    (hs : s.In source) (ht : s.cursor.rest = t) (hd : s.depth = depth)
    (hu : g.run settings (callWithin Rule.body settings n) s = .value c u) :
    c = b ∧ u.cursor.rest = v ∧ u.In source ∧ u.depth = depth := by
  obtain ⟨hread, hin⟩ := DhallSyntax.run_value hs hu
  obtain ⟨rfl, rfl⟩ := Reading.value.inj ((ht ▸ hread).symm.trans h.read)
  have hdepth := run_depth_eq settings n g s
  rw [hu] at hdepth
  exact ⟨rfl, rfl, hin, hdepth.trans hd⟩

theorem Steady.run {S : Surroundings} {K : Memo → Prop} (hK : S.Keeps settings source K)
    {levels depth : Nat} {p : Part α} {t : List Char} {r : Place α}
    (h : Steady S levels depth p t r) (n : Nat) (s : State) (hs : s.In source)
    (ht : s.cursor.rest = t) (hd : s.depth = depth) (hm : K s.memo) (bound : List Char)
    (hb : t.length ≤ bound.length) :
    (p.run settings (callWithin Rule.body settings n) bound s).Steadily
      (levels + S.stack ≤ n) K := by
  induction h generalizing n s bound with
  | @plain _ _ _ g t r hg hr =>
    obtain ⟨he, -, hmemo⟩ := run_callFree settings (callWithin Rule.body settings n)
      Rule.read g hg s hs.within
    subst ht
    rw [show g.readBy Rule.read s.cursor.rest = r.reading from hr] at he
    exact ⟨fun _ => hmemo ▸ hm, fun _ => he.not_isAbort r.reading_ne_abort⟩
  | bind hf _ ihf ihn =>
    simp only [Part.run, run_bind]
    refine (ihf n s hs ht hd hm _ (Nat.le_refl _)).andThen fun b u hu hk => ?_
    obtain ⟨rfl, hrest, hin, hdu⟩ := hf.run_value hs ht hd hu
    exact ihn n u hin hrest hdu hk _ (Nat.le_refl _)
  | miss hf ih =>
    simp only [Part.run, run_bind]
    refine (ih n s hs ht hd hm _ (Nat.le_refl _)).andThen fun b u hu hk => ?_
    cases (ht ▸ (DhallSyntax.run_value hs hu).1).symm.trans hf.read
  | left hf ih =>
    simp only [Part.run, Grammar.run]
    refine (ih n s hs ht hd hm _ (Nat.le_refl _)).orRetry fun u hu hk => ?_
    cases (ht ▸ (run_mismatch hs hu).1).symm.trans hf.read
  | @right _ _ _ first second t r hf _ ihf ihs =>
    simp only [Part.run, Grammar.run]
    refine (ihf n s hs ht hd hm _ (Nat.le_refl _)).orRetry fun u hu hk => ?_
    have hu : first.run settings (callWithin Rule.body settings n) s = .mismatch u := hu
    have hdu := run_depth_eq settings n first s
    rw [hu] at hdu
    exact ihs n _ (hs.moveTo (run_mismatch hs hu).2) ht (hdu.trans hd) hk _ (Nat.le_refl _)
  | @call levels depth rule t r hf _ ih =>
    simp only [Part.run, Grammar.run]
    cases n with
    | zero => exact ⟨fun hn => absurd trivial hn, fun he => absurd he (by omega)⟩
    | succ n =>
      rw [callWithin]
      cases hr : settings.recalls rule s with
      | true =>
        obtain ⟨hn, hmemo⟩ :=
          recallRule_recalled (rule.body.run settings (callWithin Rule.body settings n)) hr
        exact ⟨fun _ => hmemo ▸ hm, fun _ => hn⟩
      | false =>
        rw [recallRule_fresh hr]
        obtain ⟨hk, hg⟩ := ih n (s.enter rule) (hs.enter rule) ht hd hm _ (Nat.le_refl _)
        refine ⟨fun hn => ?_, fun he => (not_congr runRule_isAbort).mpr (hg (by omega))⟩
        have hkeep := hk ((not_congr runRule_isAbort).mp hn)
        obtain ⟨-, hmemo⟩ | ⟨-, entry, hmemo⟩ := runRule_memo hn
        · exact hmemo ▸ hkeep
        · rw [hmemo]
          exact hK.store _ rule _ entry hs.offset_le (hs.rest_eq ▸ ht ▸ hf) hkeep
  | nested hb _ ih =>
    subst hd
    have hadmits := hK.admits _ hb
    have hinner := ih n (s.withDepth (s.depth + 1)) (hs.withDepth _) ht rfl hm _ (Nat.le_refl _)
    simp only [Part.run, Grammar.run, nestedWithin, State.withDepth, hadmits, if_true]
    exact hinner.mapState fun _ => rfl
  | iterate _ ih => exact ih n s hs ht hd hm _ (ht ▸ Nat.le_refl _)
  | last hf ih =>
    simp only [Part.run]
    rw [iterateWithin_step]
    refine (ih n s hs ht hd hm _ (Nat.le_refl _)).andThen fun x u hu hk => ?_
    obtain ⟨rfl, -⟩ := hf.run_value hs ht hd hu
    exact .value hk
  | next hf hlt _ ihs ihn =>
    simp only [Part.run]
    rw [iterateWithin_step]
    refine (ihs n s hs ht hd hm _ (Nat.le_refl _)).andThen fun x u hu hk => ?_
    obtain ⟨rfl, hrest, hin, hdu⟩ := hf.run_value hs ht hd hu
    obtain ⟨c, bound, rfl⟩ := List.exists_cons_of_length_pos
      (Nat.lt_of_lt_of_le (Nat.zero_lt_of_lt hlt) hb)
    rw [List.length_cons] at hb
    exact ihn n u hin hrest hdu hk bound (by omega)
  | inner hi =>
    subst ht hd
    obtain ⟨hk, hg⟩ := hK.inner n _ s _ hs hi hm
    exact ⟨hk, fun he => hg (by omega)⟩

end DhallSyntax
