import DhallSyntax.Parser.Basic
import DhallSyntax.Proofs.Parser.Unbounded
import DhallSyntax.Proofs.Parser.Account

/-!
What every run leaves as it was, and what it only moves forward. Main statements:

* `callWithin_disciplined`: a rule that yields a value goes onward in the source, one that does not
  match stays where it began, and no matter how it ends as many rules and expressions are open as
  before;
* `disciplined`: so a parse on a session answers what it answers on a fresh one.
-/

namespace DhallSyntax

variable {α β σ : Type} {source : List Char}

/-! ## Places in a source -/

/-- A place in a source, at most at its end. -/
def Cursor.Inside (source : List Char) (c : Cursor) : Prop :=
  c.Of source ∧ c.offset ≤ source.length

theorem Cursor.start_inside (source : List Char) : (start source).Inside source :=
  ⟨start_of source, Nat.zero_le _⟩

theorem Cursor.advance_offset (c : Cursor) (count : Nat) : c.offset ≤ (c.advance count).offset :=
  Nat.le_add_right _ _

theorem Cursor.Inside.advance {c : Cursor} (h : c.Inside source) (count : Nat) :
    (c.advance count).Inside source := by
  refine ⟨h.1.advance count, ?_⟩
  have hrest : c.rest = source.drop c.offset := congrArg Cursor.rest h.1
  have hle := h.2
  simp only [Cursor.advance, hrest, List.length_take, List.length_drop]
  omega

/-- The cursor is in the source, and so is the end of every match in the memo, which is not in front
of the beginning. -/
structure State.Within (source : List Char) (s : State) : Prop where
  place : s.cursor.Inside source
  kept : ∀ rule offset a stop, s.memo.get? (rule, offset) = some (.matched a stop) →
    offset ≤ stop.offset ∧ stop.Inside source

namespace State.Within

variable {s : State}

theorem initial (source : List Char) : (State.initial source).Within source where
  place := Cursor.start_inside source
  kept _ _ _ _ h := by
    rw [State.initial, Std.DTreeMap.get?_emptyc] at h
    cases h

theorem moveTo (h : s.Within source) {c : Cursor} (hc : c.Inside source) :
    (s.moveTo c).Within source := ⟨hc, h.kept⟩

theorem advance (h : s.Within source) (count : Nat) : (s.advance count).Within source :=
  ⟨h.place.advance count, h.kept⟩

theorem enter (h : s.Within source) (rule : Rule) : (s.enter rule).Within source :=
  ⟨h.place, h.kept⟩

theorem withDepth (h : s.Within source) (depth : Nat) : (s.withDepth depth).Within source :=
  ⟨h.place, h.kept⟩

theorem note (h : s.Within source) (expectation : String) : (s.note expectation).Within source :=
  ⟨h.place, h.kept⟩

theorem store (h : s.Within source) {rule : Rule} {offset : Nat} {entry : MemoEntry rule}
    (he : ∀ a stop, entry = .matched a stop → offset ≤ stop.offset ∧ stop.Inside source) :
    (s.store rule offset entry).Within source where
  place := h.place
  kept rule' offset' a stop hk := by
    simp only [State.store, Std.DTreeMap.get?_insert] at hk
    split at hk
    · rename_i heq
      cases Std.LawfulEqCmp.compare_eq_iff_eq.mp heq
      exact he a stop (Option.some.inj hk)
    · exact h.kept rule' offset' a stop hk

end State.Within

/-! ## Runs -/

/-- How a run from a state ends in good order: as many rules and expressions are open as before,
the cursor is in the source, and a value is yielded at the same place or further on. -/
structure Outcome.Disciplined (source : List Char) (s : State) (r : Outcome α) : Prop where
  active : r.state.active = s.active
  depth : r.state.depth = s.depth
  within : r.state.Within source
  onward : ∀ a t, r = .value a t → s.cursor.offset ≤ t.cursor.offset

namespace Outcome.Disciplined

variable {s t : State}

theorem value (h : t.Within source) (ha : t.active = s.active) (hd : t.depth = s.depth)
    (ho : s.cursor.offset ≤ t.cursor.offset) (a : α) : (value a t).Disciplined source s :=
  ⟨ha, hd, h, fun _ _ he => by cases he; exact ho⟩

theorem stay (hs : s.Within source) (a : α) : (Outcome.value a s).Disciplined source s :=
  value hs rfl rfl (Nat.le_refl _) a

theorem moveTo (hs : s.Within source) {c : Cursor} (hc : c.Inside source)
    (ho : s.cursor.offset ≤ c.offset) (a : α) :
    (Outcome.value a (s.moveTo c)).Disciplined source s :=
  ⟨rfl, rfl, hs.moveTo hc, fun _ _ he => by cases he; exact ho⟩

theorem mismatch (h : t.Within source) (ha : t.active = s.active) (hd : t.depth = s.depth) :
    (mismatch (α := α) t).Disciplined source s :=
  ⟨ha, hd, h, fun _ _ he => by cases he⟩

theorem abort (h : s.Within source) (fault : Fault) (back : Nat) :
    (s.abort (α := α) fault back).Disciplined source s :=
  ⟨rfl, rfl, h, fun _ _ he => by cases he⟩

theorem andThen {r : Outcome β} {f : β → State → Outcome α} (h : r.Disciplined source s)
    (hf : ∀ b t, t.Within source → (f b t).Disciplined source t) :
    (r.andThen f).Disciplined source s := by
  cases r with
  | value b t =>
    have hlater := hf b t h.within
    exact ⟨hlater.active.trans h.active, hlater.depth.trans h.depth, hlater.within,
      fun a u hu => Nat.le_trans (h.onward b t rfl) (hlater.onward a u hu)⟩
  | mismatch t => exact .mismatch h.within h.active h.depth
  | abort a t => exact ⟨h.active, h.depth, h.within, fun _ _ he => by cases he⟩

theorem orRetry {r : Outcome α} {f : State → Outcome α} (h : r.Disciplined source s)
    (hs : s.Within source) (hf : ∀ t, t.Within source → (f t).Disciplined source t) :
    (orRetry s.cursor f r).Disciplined source s := by
  cases r with
  | value a t => exact h
  | mismatch t =>
    have hlater := hf (t.moveTo s.cursor) (h.within.moveTo hs.place)
    exact ⟨hlater.active.trans h.active, hlater.depth.trans h.depth, hlater.within,
      hlater.onward⟩
  | abort a t => exact h

theorem iterateWithin {run : σ → State → Outcome (σ ⊕ α)}
    (h : ∀ state s, s.Within source → (run state s).Disciplined source s) (bound : List Char)
    (state : σ) (s : State) (hs : s.Within source) :
    (DhallSyntax.iterateWithin run bound state s).Disciplined source s := by
  induction bound generalizing state s with
  | nil =>
    rw [iterateWithin_step]
    refine (h state s hs).andThen fun x t ht => ?_
    cases x with
    | inl next => exact abort ht _ 0
    | inr a => exact .stay ht a
  | cons _ bound ih =>
    rw [iterateWithin_step]
    refine (h state s hs).andThen fun x t ht => ?_
    cases x with
    | inl next => exact ih next t ht
    | inr a => exact .stay ht a

/-- A run between a change of what is open and the change back. -/
theorem mapState {u : State} {r : Outcome α} {f : State → State} (h : r.Disciplined source u)
    (hplace : u.cursor = s.cursor) (hcursor : ∀ t, (f t).cursor = t.cursor)
    (hmemo : ∀ t, (f t).memo = t.memo) (hactive : ∀ t, t.active = u.active → (f t).active = s.active)
    (hdepth : ∀ t, t.depth = u.depth → (f t).depth = s.depth) :
    (r.mapState f).Disciplined source s := by
  have hwithin : ∀ t, t.Within source → (f t).Within source := fun t ht =>
    ⟨hcursor t ▸ ht.place, hmemo t ▸ ht.kept⟩
  cases r with
  | value a t =>
    have honward := h.onward a t rfl
    rw [hplace, ← hcursor t] at honward
    exact value (hwithin t h.within) (hactive t h.active) (hdepth t h.depth) honward a
  | mismatch t => exact .mismatch (hwithin t h.within) (hactive t h.active) (hdepth t h.depth)
  | abort a t =>
    exact ⟨hactive t h.active, hdepth t h.depth, hwithin t h.within, fun _ _ he => by cases he⟩

/-- An expression that is opened is closed again. -/
theorem nested {settings : Settings} {body : State → Outcome α} (hs : s.Within source)
    (h : (body (s.withDepth (s.depth + 1))).Disciplined source (s.withDepth (s.depth + 1))) :
    (nestedWithin settings body s).Disciplined source s := by
  simp only [nestedWithin]
  split
  · exact h.mapState rfl (fun _ => rfl) (fun _ => rfl) (fun _ ht => ht)
      fun _ ht => congrArg (· - 1) ht
  · exact ⟨rfl, rfl, hs.withDepth _, fun _ _ he => by cases he⟩

end Outcome.Disciplined

theorem run_disciplined {settings : Settings} {caller : Caller}
    (h : ∀ rule s, s.Within source → (caller rule s).Disciplined source s) (g : Grammar α)
    (s : State) (hs : s.Within source) : (g.run settings caller s).Disciplined source s := by
  induction g generalizing s with
  | pure a => exact .stay hs a
  | look view => exact .stay hs _
  | bind first next ihf ihn =>
    rw [run_bind]
    exact (ihf s hs).andThen ihn
  | orElse first second ihf ihs => exact (ihf s hs).orRetry hs ihs
  | call rule => exact h rule s hs
  | nested body ih => exact .nested hs (ih _ (hs.withDepth _))
  | iterate state step ih => exact .iterateWithin ih _ state s hs
  | accept literal =>
    rw [Grammar.run]
    split
    · exact .moveTo hs (hs.place.advance _) (s.cursor.advance_offset _) true
    · exact .stay hs false
  | advance count => exact .moveTo hs (hs.place.advance count) (s.cursor.advance_offset count) ()
  | fail expectation => exact .mismatch (hs.note expectation) rfl rfl
  | mismatch => exact .mismatch hs rfl rfl
  | abort fault back => exact .abort hs fault back

/-! ## Rules -/

/-- A rule that does not match is left where it was entered. -/
def Outcome.Backs (s : State) (r : Outcome α) : Prop :=
  ∀ t, r = .mismatch t → t.cursor = s.cursor

theorem recordOutcome_disciplined {rule : Rule} {s : State} {r : Outcome rule.Result}
    (memoize : Bool) (hs : s.Within source) (h : r.Disciplined source s) :
    (recordOutcome memoize rule s.cursor r).Disciplined source s ∧
      (recordOutcome memoize rule s.cursor r).Backs s := by
  cases r with
  | value a t =>
    refine ⟨?_, fun _ he => by cases he⟩
    have honward := h.onward a t rfl
    cases memoize with
    | true =>
      refine .value (h.within.store ?_) h.active h.depth honward a
      rintro _ _ ⟨⟩
      exact ⟨honward, h.within.place⟩
    | false => exact .value h.within h.active h.depth honward a
  | mismatch t =>
    have hback := h.within.moveTo hs.place
    cases memoize with
    | true =>
      refine ⟨.mismatch (hback.store ?_) h.active h.depth, fun _ he => by cases he; rfl⟩
      rintro _ _ ⟨⟩
    | false => exact ⟨.mismatch hback h.active h.depth, fun _ he => by cases he; rfl⟩
  | abort a t => exact ⟨h, fun _ he => by cases he⟩

theorem runRule_disciplined {settings : Settings} {rule : Rule} {s : State}
    {body : State → Outcome rule.Result} (hs : s.Within source)
    (h : (body (s.enter rule)).Disciplined source (s.enter rule)) :
    (runRule settings rule body s).Disciplined source s ∧
      (runRule settings rule body s).Backs s :=
  recordOutcome_disciplined settings.memoize hs
    (h.mapState rfl (fun _ => rfl) (fun _ => rfl) (fun _ ht => congrArg List.tail ht) fun _ ht => ht)

theorem recallRule_disciplined {settings : Settings} {rule : Rule} {s : State}
    {body : State → Outcome rule.Result} (hs : s.Within source)
    (h : (body (s.enter rule)).Disciplined source (s.enter rule)) :
    (recallRule settings rule body s).Disciplined source s ∧
      (recallRule settings rule body s).Backs s := by
  rw [recallRule]
  split
  · split
    · rename_i a stop hk
      obtain ⟨honward, hstop⟩ := hs.kept _ _ _ _ hk
      exact ⟨.moveTo hs hstop honward a, fun _ he => by cases he⟩
    · exact ⟨.mismatch hs rfl rfl, fun _ he => by cases he; rfl⟩
    · exact runRule_disciplined hs h
  · exact runRule_disciplined hs h

/-- Every rule goes onward or stays where it began, and leaves as many rules and expressions open as
it found. -/
theorem callWithin_disciplined (bodies : (rule : Rule) → Grammar rule.Result) (settings : Settings)
    (n : Nat) (rule : Rule) (s : State) (hs : s.Within source) :
    (callWithin bodies settings n rule s).Disciplined source s ∧
      (callWithin bodies settings n rule s).Backs s := by
  induction n generalizing rule s with
  | zero => exact ⟨.abort hs _ 0, fun _ he => by cases he⟩
  | succ n ih =>
    exact recallRule_disciplined hs
      (run_disciplined (fun rule s hs => (ih rule s hs).1) (bodies rule) _ (hs.enter rule))

theorem start_disciplined (settings : Settings) (g : Grammar α) (s : State)
    (hs : s.Within source) : (g.start settings s).Disciplined source s :=
  run_disciplined (fun rule s hs => (callWithin_disciplined _ _ _ rule s hs).1) g s hs

/-! ## Sessions -/

theorem runFrom_state (settings : Settings) (source : List Char) (g : Grammar α) :
    (runFrom settings source g).state = (g.start settings (.initial source)).state := by
  unfold runFrom
  cases g.start settings (.initial source) <;> rfl

theorem parseWith_state (settings : Settings) (source : List Char) :
    (parseWith settings source).state =
      (Grammar.completeExpression.start settings (.initial source)).state := by
  rw [← runFrom_state, parseWith]
  cases (runFrom settings source Grammar.completeExpression).result with
  | error e => rfl
  | ok e => dsimp only; split <;> rfl

theorem parsePrefixWith_state (settings : Settings) (source : List Char) :
    (parsePrefixWith settings source).state =
      (Grammar.leadingExpression.start settings (.initial source)).state :=
  runFrom_state settings source Grammar.leadingExpression

namespace Session

/-- The state of a session between calls: nothing is open, and the cursor is in the source. -/
structure Idle (session : Session) : Prop where
  active : session.state.active = []
  depth : session.state.depth = 0
  within : session.state.Within session.source

theorem idle_start (settings : Settings) (source : String) : (start settings source).Idle :=
  ⟨rfl, rfl, .initial source.toList⟩

/-- A run from the beginning leaves a session idle. -/
theorem idle_of_start (session : Session) (g : Grammar α) {state : State}
    (h : state = (g.start session.settings (.initial session.source)).state) :
    ({ session with state := state } : Session).Idle := by
  have hrun := start_disciplined session.settings g _ (.initial session.source)
  subst h
  exact ⟨hrun.active, hrun.depth, hrun.within⟩

/-- What can be asked of a session. -/
inductive Call where
  | parse
  | parsePrefix
  | advance (count : Int)

/-- Whether a call parses. -/
def Call.Parses : Call → Prop
  | parse | parsePrefix => True
  | advance _ => False

inductive Answer where
  | expression (result : Except ParseError Expr)
  | front (result : Except ParseError Prefix)
  | text (text : String)

/-- The answer to a call, and the session after it. -/
def answer (session : Session) : Call → Answer × Session
  | .parse => (.expression session.parse.1, session.parse.2)
  | .parsePrefix => (.front session.parsePrefix.1, session.parsePrefix.2)
  | .advance count => (.text (session.advance count).1, (session.advance count).2)

/-- The session after some calls. -/
def after (session : Session) (calls : List Call) : Session :=
  calls.foldl (fun session call => (session.answer call).2) session

theorem answer_idle {session : Session} (h : session.Idle) (call : Call) :
    (session.answer call).2.Idle := by
  cases call with
  | parse => exact idle_of_start session _ (parseWith_state session.settings session.source)
  | parsePrefix =>
    exact idle_of_start session Grammar.leadingExpression
      (parsePrefixWith_state session.settings session.source)
  | advance count => exact ⟨h.active, h.depth, h.within.advance _⟩

theorem answer_same (session : Session) (call : Call) :
    (session.answer call).2.settings = session.settings ∧
      (session.answer call).2.source = session.source := by
  cases call <;> exact ⟨rfl, rfl⟩

theorem after_idle {session : Session} (h : session.Idle) (calls : List Call) :
    (session.after calls).Idle := by
  induction calls generalizing session with
  | nil => exact h
  | cons call calls ih => exact ih (answer_idle h call)

theorem after_same (session : Session) (calls : List Call) :
    (session.after calls).settings = session.settings ∧
      (session.after calls).source = session.source := by
  induction calls generalizing session with
  | nil => exact ⟨rfl, rfl⟩
  | cons call calls ih =>
    obtain ⟨hsettings, hsource⟩ := answer_same session call
    exact ⟨(ih _).1.trans hsettings, (ih _).2.trans hsource⟩

/-- Two sessions on one source with the same settings answer a parse alike, wherever they are. -/
theorem answer_eq {session other : Session} (hsettings : session.settings = other.settings)
    (hsource : session.source = other.source) {call : Call} (hcall : call.Parses) :
    (session.answer call).1 = (other.answer call).1 := by
  cases call with
  | parse => simp only [answer, Session.parse, hsettings, hsource]
  | parsePrefix => simp only [answer, Session.parsePrefix, hsettings, hsource]
  | advance count => exact hcall.elim

end Session

/-- The cursor, the open rules and the depth are kept in order by every rule, no matter how it
ends, and so a parse answers the same on a session as on a fresh one, whatever was asked of the
session before. -/
theorem disciplined (settings : Settings) (source : String) :
    (∀ (n : Nat) (rule : Rule) (s : State), s.Within source.toList →
      let r := callWithin Rule.body settings n rule s
      (∀ a t, r = .value a t → s.cursor.offset ≤ t.cursor.offset ∧
        t.cursor.offset ≤ source.toList.length) ∧
      (∀ t, r = .mismatch t → t.cursor = s.cursor) ∧
      r.state.active = s.active ∧ r.state.depth = s.depth ∧ r.state.Within source.toList) ∧
    ∀ calls : List Session.Call,
      ((Session.start settings source).after calls).Idle ∧
      ∀ call : Session.Call, call.Parses →
        (((Session.start settings source).after calls).answer call).1 =
          ((Session.start settings source).answer call).1 := by
  constructor
  · intro n rule s hs r
    obtain ⟨hr, hback⟩ := callWithin_disciplined Rule.body settings n rule s hs
    refine ⟨fun a t ht => ⟨hr.onward a t ht, ?_⟩, hback, hr.active, hr.depth, hr.within⟩
    have hwithin := hr.within
    rw [show callWithin Rule.body settings n rule s = .value a t from ht] at hwithin
    exact hwithin.place.2
  · intro calls
    obtain ⟨hsettings, hsource⟩ := Session.after_same (.start settings source) calls
    exact ⟨Session.after_idle (Session.idle_start settings source) calls,
      fun call hcall => Session.answer_eq hsettings hsource hcall⟩

def Outcome.isMismatch : Outcome α → Bool
  | mismatch _ => true
  | _ => false

/-- A parse that fails behind the parenthesis, a step over that, and a parse from the beginning. -/
theorem disciplined_parenthesis :
    let settings : Settings := ⟨some 3, true, 50⟩
    let session := Session.start settings "(1"
    let r := callWithin Rule.body settings 50 .expression (.initial "(1".toList)
    (∃ t, r = .mismatch t ∧ t.cursor.offset = 0 ∧ t.active = [] ∧ t.depth = 0) ∧
      ((session.after [.parse, .advance 1]).answer .parsePrefix).1 =
        (session.answer .parsePrefix).1 := by
  intro settings session r
  obtain ⟨hrule, hsession⟩ := disciplined settings "(1"
  obtain ⟨-, hback, hactive, hdepth, -⟩ := hrule 50 .expression _ (.initial _)
  have hends : r.isMismatch = true := by decide +kernel
  refine ⟨?_, (hsession [.parse, .advance 1]).2 .parsePrefix trivial⟩
  cases hr : r with
  | mismatch t =>
    rw [show callWithin Rule.body settings 50 .expression _ = .mismatch t from hr] at hactive hdepth
    exact ⟨t, rfl, congrArg Cursor.offset (hback t hr), hactive, hdepth⟩
  | value a t => rw [hr] at hends; cases hends
  | abort a t => rw [hr] at hends; cases hends

end DhallSyntax
