import DhallSyntax.Parser.Basic
import DhallSyntax.Proofs.Parser.Bounded
import DhallSyntax.Proofs.Parser.Uncached

/-!
Parsing with a memo. Main statements:

* `parse_memo_sound`: at every moment of a parse each memo entry is what the rule would do at its
  offset without a memo and without a bound, and where parsing without a memo does not end in a
  nesting error, parsing with one yields the same expression and extent or the same error;
* `start_alike`: the same of runs of any part of the grammar.
-/

namespace DhallSyntax

variable {α : Type}

/-! ## Entries -/

/-- Whether a memo entry says how a run ends that began at a cursor. -/
def MemoEntry.Tells {rule : Rule} (entry : MemoEntry rule) (start : Cursor)
    (r : Outcome rule.Result) : Prop :=
  match entry with
  | .matched a stop => ∃ s, r = .value a s ∧ s.cursor = stop
  | .failed => ∃ s, r = .mismatch s ∧ s.cursor = start

/-- Each memo entry says how its rule ends at its offset, whenever it is run without a memo and
without a bound on nested expressions, and with enough stack. -/
def State.MemoExact (source : List Char) (s : State) : Prop :=
  ∀ rule offset entry, s.memo.get? (rule, offset) = some entry →
    ∃ enough, ∀ stack, enough ≤ stack → ∀ t : State, t.cursor = .atOffset source offset →
      entry.Tells t.cursor (callWithin Rule.body ⟨none, false, stack⟩ stack rule t)

theorem State.Sound.memoExact {source : List Char} {s : State} (h : s.Sound Rule.body source) :
    s.MemoExact source := by
  intro rule offset entry he
  obtain ⟨k, hk, -⟩ := h.kept rule offset entry he
  refine ⟨k, fun stack hs t ht => ?_⟩
  have hx : ¬ (readWithin Rule.body k rule (.atOffset source offset)).Exhausted := by
    cases entry with
    | matched a stop => simp [Account.Exhausted, show _ = _ from hk]
    | failed =>
      obtain ⟨c, hk⟩ := hk
      simp [Account.Exhausted, hk]
  have hread := (readWithin_grows Rule.body hs rule (.atOffset source offset)).resolve_left hx
  rw [callWithin_eq_lift rfl rfl Rule.body stack rule t, ht, hread, Account.lift]
  cases entry with
  | matched a stop =>
    have hk : (readWithin Rule.body k rule (.atOffset source offset)).ending = .value a stop := hk
    rw [hk]
    exact ⟨_, rfl, by rw [Account.stateAfter_cursor, hk]; rfl⟩
  | failed =>
    obtain ⟨c, hk⟩ := hk
    rw [hk]
    exact ⟨_, rfl, by rw [Account.stateAfter_cursor, hk]; exact readWithin_mismatch hk⟩

/-! ## Runs -/

/-- At every moment of a run from the beginning of a source the memo is exact. -/
theorem history_memoExact (settings : Settings) (source : List Char) (g : Grammar α) :
    ∀ t ∈ g.history settings (.initial source), t.MemoExact source := fun t ht =>
  (history_sound settings g _ (.initial Rule.body source) t ht).memoExact

theorem Account.Exhausted.lift {A : Account α} (h : A.Exhausted) (s : State) :
    (A.lift s).Exhausted := by
  obtain ⟨a, c, he, ha⟩ := h
  exact ⟨{ a with rules := s.rules ++ a.rules }, A.stateAfter s,
    by simp only [Account.lift, he], ha⟩

/-- With a memo a part of the grammar does the same as without one, up to the rules in the report,
unless it goes too deep without one or needs more stack. -/
theorem start_alike (source : List Char) (m stack : Nat) (g : Grammar α)
    (hd : ¬ (g.start ⟨some m, false, stack⟩ (.initial source)).TooDeep)
    (hx : ¬ (g.start ⟨some m, false, stack⟩ (.initial source)).Exhausted) :
    (g.start ⟨some m, false, stack⟩ (.initial source)).Alike
      (g.start ⟨some m, true, stack⟩ (.initial source)) := by
  let plain : Settings := ⟨some m, false, stack⟩
  let cached : Settings := ⟨some m, true, stack⟩
  let s : State := .initial source
  have hs : s.Sound Rule.body source := .initial Rule.body source
  -- Without a memo the bound is not reached, and so the run is what the account says.
  have hplain : Bounds m _ _ (g.start plain s) := start_bounded rfl g s (Nat.zero_le m)
  obtain ⟨hshallow, hplain⟩ | ⟨-, hdeep⟩ := hplain
  case inr => exact absurd hdeep hd
  have haccount : g.start plain.unlimited s =
      (g.account (readWithin Rule.body stack) s.cursor).lift s := start_eq_lift rfl rfl g s
  rw [haccount] at hplain
  have hgiven : ¬ (g.account (readWithin Rule.body stack) s.cursor).Exhausted := fun he =>
    hx (show (g.start plain s).Exhausted from hplain ▸ he.lift s)
  -- With a memo no more expressions are opened.
  have hopens : Opens (g.history cached.unlimited s) (g.history plain.unlimited s) :=
    history_opens rfl rfl rfl (by rfl) g s hs hgiven
  have hcached : Bounds m _ _ (g.start cached s) := start_bounded rfl g s (Nat.zero_le m)
  obtain ⟨-, hcached⟩ | ⟨hdeep, -⟩ := hcached
  case inr => exact absurd (hshallow.opens hopens) hdeep
  have hfree := (start_accounted cached.unlimited g s hs).alike rfl
    (growing_account Rule.body g s.cursor) hgiven
  rw [← hcached] at hfree
  exact hplain ▸ hfree

/-! ## Results -/

namespace ParseError

/-- Whether an error is that expressions or rules are too deep inside each other. -/
def isNesting : ParseError → Bool
  | source e => e.kind == .nesting
  | stackExhausted => true
  | numberRange => false

/-- Errors of the same class. Errors in the source say the same of the same place. -/
def Same : ParseError → ParseError → Prop
  | source e, source e' =>
    e.kind = e'.kind ∧ e.location = e'.location ∧ e.expected = e'.expected
  | e, e' => e = e'

theorem ofFurthest_same {s t : State} (h : s.Alike t) (source : List Char) :
    (ofFurthest source s.furthest).Same (ofFurthest source t.furthest) := by
  have hr := h.report
  unfold State.report at hr
  unfold ofFurthest
  cases hs : s.furthest <;> cases ht : t.furthest <;> rw [hs, ht] at hr <;>
    simp_all [Same]

theorem ofTrailing_same {s t : State} (h : s.Alike t) (source : List Char) (offset : Nat) :
    (ofTrailing source offset s.furthest).Same (ofTrailing source offset t.furthest) := by
  have hr := h.report
  unfold State.report at hr
  unfold ofTrailing
  cases hs : s.furthest <;> cases ht : t.furthest <;> rw [hs, ht] at hr
  · simp [Same]
  · cases hr
  · cases hr
  · rename_i f f'
    simp only [Option.map_some, Option.some.injEq, Prod.mk.injEq] at hr
    obtain ⟨ho, he⟩ := hr
    simp only [ho, he]
    split
    · simp [Same]
    · split <;> simp [Same]

end ParseError

/-- Results that are equal or errors of the same class that say the same. -/
inductive Agree : Except ParseError α → Except ParseError α → Prop where
  | ok (a : α) : Agree (.ok a) (.ok a)
  | error {e e' : ParseError} (h : e.Same e') : Agree (.error e) (.error e')

/-- Whether a result is a nesting error. -/
def nests : Except ParseError α → Bool
  | .ok _ => false
  | .error e => e.isNesting

theorem runFrom_agree {source : List Char} {settings settings' : Settings} {g : Grammar α}
    (h : (g.start settings (.initial source)).Alike (g.start settings' (.initial source))) :
    Agree (runFrom settings source g).result (runFrom settings' source g).result ∧
      (runFrom settings source g).state.Alike (runFrom settings' source g).state := by
  unfold runFrom
  cases hr : g.start settings (.initial source) <;>
    cases hr' : g.start settings' (.initial source) <;> rw [hr, hr'] at h
  case value.value a s b t =>
    obtain ⟨rfl, h⟩ := h
    exact ⟨.ok a, h⟩
  case mismatch.mismatch => exact ⟨.error (ParseError.ofFurthest_same h source), h⟩
  case abort.abort a s b t =>
    obtain ⟨rfl, h⟩ := h
    refine ⟨.error ?_, h⟩
    simp only [ParseError.ofAbort]
    cases a.fault <;> simp [ParseError.Same]
  all_goals cases h

/-- A run that is too deep or exhausts the stack makes a nesting error. -/
theorem runFrom_nests {source : List Char} {settings : Settings} {g : Grammar α}
    (h : (g.start settings (.initial source)).TooDeep ∨
      (g.start settings (.initial source)).Exhausted) :
    nests (runFrom settings source g).result = true := by
  unfold runFrom
  obtain ⟨limit, a, s, hr, ha⟩ | ⟨a, s, hr, ha⟩ := h <;>
    simp [hr, nests, ParseError.ofAbort, ha, ParseError.isNesting, Defect.kind]

theorem runFrom_memo_agree {source : List Char} {m stack : Nat} {g : Grammar α}
    (h : nests (runFrom ⟨some m, false, stack⟩ source g).result = false) :
    Agree (runFrom ⟨some m, false, stack⟩ source g).result
        (runFrom ⟨some m, true, stack⟩ source g).result ∧
      (runFrom ⟨some m, false, stack⟩ source g).state.Alike
        (runFrom ⟨some m, true, stack⟩ source g).state := by
  refine runFrom_agree (start_alike source m stack g (fun hd => ?_) fun hx => ?_)
  · rw [runFrom_nests (.inl hd)] at h
    cases h
  · rw [runFrom_nests (.inr hx)] at h
    cases h

theorem parse_agree {source : String} {settings settings' : Settings}
    (h : Agree (runFrom settings source.toList Grammar.completeExpression).result
      (runFrom settings' source.toList Grammar.completeExpression).result)
    (hs : (runFrom settings source.toList Grammar.completeExpression).state.Alike
      (runFrom settings' source.toList Grammar.completeExpression).state) :
    Agree (parse settings source) (parse settings' source) := by
  unfold parse parseWith
  dsimp only
  rw [hs.cursor]
  generalize (runFrom settings source.toList Grammar.completeExpression).result = r at h
  generalize (runFrom settings' source.toList Grammar.completeExpression).result = r' at h
  cases h with
  | ok e =>
    dsimp only
    split
    · exact .ok e
    · exact .error (ParseError.ofTrailing_same hs _ _)
  | error h => exact .error h

theorem parsePrefix_agree {source : String} {settings settings' : Settings}
    (h : Agree (runFrom settings source.toList Grammar.leadingExpression).result
      (runFrom settings' source.toList Grammar.leadingExpression).result)
    (hs : (runFrom settings source.toList Grammar.leadingExpression).state.Alike
      (runFrom settings' source.toList Grammar.leadingExpression).state) :
    Agree (parsePrefix settings source) (parsePrefix settings' source) := by
  unfold parsePrefix parsePrefixWith
  dsimp only
  rw [hs.cursor]
  generalize (runFrom settings source.toList Grammar.leadingExpression).result = r at h
  generalize (runFrom settings' source.toList Grammar.leadingExpression).result = r' at h
  cases h with
  | ok e => exact .ok _
  | error h => exact .error h

/-- A nesting error of the run is one of the parse. -/
theorem nests_of_parse {source : String} {settings : Settings}
    (h : nests (parse settings source) = false) :
    nests (runFrom settings source.toList Grammar.completeExpression).result = false := by
  unfold parse parseWith at h
  dsimp only at h
  cases hr : (runFrom settings source.toList Grammar.completeExpression).result with
  | error e =>
    rw [hr] at h
    exact h
  | ok e => rfl

theorem nests_of_parsePrefix {source : String} {settings : Settings}
    (h : nests (parsePrefix settings source) = false) :
    nests (runFrom settings source.toList Grammar.leadingExpression).result = false := by
  unfold parsePrefix parsePrefixWith at h
  dsimp only at h
  cases hr : (runFrom settings source.toList Grammar.leadingExpression).result with
  | error e =>
    rw [hr] at h
    exact h
  | ok e => rfl

theorem parse_memo_agree {source : String} {m stack : Nat}
    (h : nests (parse ⟨some m, false, stack⟩ source) = false) :
    Agree (parse ⟨some m, false, stack⟩ source) (parse ⟨some m, true, stack⟩ source) := by
  obtain ⟨hr, hs⟩ := runFrom_memo_agree (nests_of_parse h)
  exact parse_agree hr hs

theorem parsePrefix_memo_agree {source : String} {m stack : Nat}
    (h : nests (parsePrefix ⟨some m, false, stack⟩ source) = false) :
    Agree (parsePrefix ⟨some m, false, stack⟩ source)
      (parsePrefix ⟨some m, true, stack⟩ source) := by
  obtain ⟨hr, hs⟩ := runFrom_memo_agree (nests_of_parsePrefix h)
  exact parsePrefix_agree hr hs

/-- Parsing with a memo is parsing without one, unless that ends in a nesting error, and at every
moment of it the memo holds what the rules do without a memo and without a bound. -/
theorem parse_memo_sound (source : String) (m stack : Nat) :
    (nests (parse ⟨some m, false, stack⟩ source) = false →
      Agree (parse ⟨some m, false, stack⟩ source) (parse ⟨some m, true, stack⟩ source)) ∧
    (nests (parsePrefix ⟨some m, false, stack⟩ source) = false →
      Agree (parsePrefix ⟨some m, false, stack⟩ source)
        (parsePrefix ⟨some m, true, stack⟩ source)) ∧
    (∀ t ∈ Grammar.completeExpression.history ⟨some m, true, stack⟩ (.initial source.toList),
      t.MemoExact source.toList) ∧
    ∀ t ∈ Grammar.leadingExpression.history ⟨some m, true, stack⟩ (.initial source.toList),
      t.MemoExact source.toList := by
  refine ⟨parse_memo_agree, parsePrefix_memo_agree, ?_, ?_⟩
  · exact history_memoExact _ _ _
  · exact history_memoExact _ _ _

/-- A source that is read twice in part, with one closing parenthesis more than it opens. -/
theorem parse_memo_sound_annotation :
    nests (parse ⟨some 4, false, 200⟩ "toMap x : (T) : U)") = false ∧
      Agree (parse ⟨some 4, false, 200⟩ "toMap x : (T) : U)")
        (parse ⟨some 4, true, 200⟩ "toMap x : (T) : U)") ∧
      nests (parsePrefix ⟨some 4, false, 200⟩ "toMap x : (T) : U)") = false ∧
      Agree (parsePrefix ⟨some 4, false, 200⟩ "toMap x : (T) : U)")
        (parsePrefix ⟨some 4, true, 200⟩ "toMap x : (T) : U)") := by
  have h : nests (parse ⟨some 4, false, 200⟩ "toMap x : (T) : U)") = false := by decide +kernel
  have h' : nests (parsePrefix ⟨some 4, false, 200⟩ "toMap x : (T) : U)") = false := by
    decide +kernel
  obtain ⟨hp, hq, -⟩ := parse_memo_sound "toMap x : (T) : U)" 4 200
  exact ⟨h, hp h, h', hq h'⟩

end DhallSyntax
