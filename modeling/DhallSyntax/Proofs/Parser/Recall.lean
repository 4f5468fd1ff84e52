import DhallSyntax.Proofs.Parser.Report

/-!
Runs that recall the outcomes of rules. A memo is sound when each of its entries is what the
account of its rule says at its offset, and all failures of that account are in the report.
Main statement: `callWithin_accounted`, from a state with a sound memo a rule does what its account
says, up to the rules in the report, unless it goes too deep, and leaves a sound memo.
-/

namespace DhallSyntax

variable {α β σ : Type} {bodies : (rule : Rule) → Grammar rule.Result} {source : List Char}
  {settings : Settings} {n : Nat}

/-- Whether a memo entry is how a rule ends. -/
def MemoEntry.Holds {rule : Rule} (entry : MemoEntry rule) (e : Ending rule.Result) : Prop :=
  match entry with
  | .matched a stop => e = .value a stop
  | .failed => ∃ c, e = .mismatch c

/-- What is known of a rule that ended as the entry says. -/
def MemoEntry.Sound {rule : Rule} (bodies : (rule : Rule) → Grammar rule.Result)
    (source : List Char) (r : Report) (offset : Nat) (entry : MemoEntry rule) : Prop :=
  ∃ k, entry.Holds (readWithin bodies k rule (.atOffset source offset)).ending ∧
    ∀ m ∈ (readWithin bodies k rule (.atOffset source offset)).misses, r.Covers m

/-- A state in the source whose memo is sound. -/
structure State.Sound (bodies : (rule : Rule) → Grammar rule.Result) (source : List Char)
    (s : State) : Prop where
  place : s.cursor.Of source
  kept : ∀ rule offset entry, s.memo.get? (rule, offset) = some entry →
    entry.Sound bodies source s.report offset

theorem MemoEntry.Sound.mono {rule : Rule} {r r' : Report} {offset : Nat}
    {entry : MemoEntry rule} (h : entry.Sound bodies source r offset)
    (hr : ∀ m, r.Covers m → r'.Covers m) : entry.Sound bodies source r' offset := by
  obtain ⟨k, he, hm⟩ := h
  exact ⟨k, he, fun m h => hr m (hm m h)⟩

namespace State.Sound

variable {s : State}

theorem initial (bodies : (rule : Rule) → Grammar rule.Result) (source : List Char) :
    (State.initial source).Sound bodies source where
  place := Cursor.start_of source
  kept rule offset entry h := by simp [State.initial] at h

theorem moveTo (h : s.Sound bodies source) {c : Cursor} (hc : c.Of source) :
    (s.moveTo c).Sound bodies source := ⟨hc, h.kept⟩

theorem withDepth (h : s.Sound bodies source) (depth : Nat) :
    (s.withDepth depth).Sound bodies source := ⟨h.place, h.kept⟩

theorem enter (h : s.Sound bodies source) (rule : Rule) :
    (s.enter rule).Sound bodies source := ⟨h.place, h.kept⟩

theorem leave (h : s.Sound bodies source) : s.leave.Sound bodies source := ⟨h.place, h.kept⟩

theorem note (h : s.Sound bodies source) (expectation : String) :
    (s.note expectation).Sound bodies source where
  place := h.place
  kept rule offset entry he := by
    have hr : (s.note expectation).report = s.report.add ⟨s.cursor.offset, expectation, []⟩ :=
      note_report s.furthest ⟨s.cursor.offset, expectation, []⟩ s.rules
    rw [hr]
    exact (h.kept rule offset entry he).mono fun m hm => hm.add _

/-- Storing what the account says keeps a memo sound. -/
theorem store (h : s.Sound bodies source) {rule : Rule} {offset : Nat} {entry : MemoEntry rule}
    (he : entry.Sound bodies source s.report offset) :
    (s.store rule offset entry).Sound bodies source where
  place := h.place
  kept rule' offset' entry' he' := by
    simp only [State.store, Std.DTreeMap.get?_insert] at he'
    split at he'
    · rename_i hk
      have hk := Std.LawfulEqCmp.compare_eq_iff_eq.mp hk
      cases hk
      cases he'
      exact he
    · exact h.kept rule' offset' entry' he'

end State.Sound

namespace Outcome

/-- The parse has ended because expressions are too deep inside each other. -/
def TooDeep (r : Outcome α) : Prop :=
  ∃ limit a s, r = abort a s ∧ a.fault = .defect (.tooDeep limit)

/-- The parse has ended because rules are too deep inside each other. -/
def Exhausted (r : Outcome α) : Prop :=
  ∃ a s, r = abort a s ∧ a.fault = .stackExhausted

end Outcome

/-- How a run with a memo may end, beside the accounts of the same part with more and more
stack. -/
structure Accounted (bodies : (rule : Rule) → Grammar rule.Result) (source : List Char)
    (settings : Settings) (n : Nat) (acc : Nat → Account α) (s : State) (r : Outcome α) :
    Prop where
  sound : r.state.Sound bodies source
  ends : settings.maxDepth ≠ none ∧ r.TooDeep ∨ r.Exhausted ∧ (acc n).Exhausted ∨
    ∃ k, n ≤ k ∧ ¬ (acc k).Exhausted ∧ ((acc k).lift s).Alike r

/-- More stack changes only accounts that exhaust it. -/
def Growing (acc : Nat → Account α) : Prop := ∀ m n, m ≤ n → Account.Grows (acc m) (acc n)

theorem Growing.eq {acc : Nat → Account α} (h : Growing acc) {m n : Nat} (hmn : m ≤ n)
    (hm : ¬ (acc m).Exhausted) : acc n = acc m := (h m n hmn).resolve_left hm

theorem growing_account (bodies : (rule : Rule) → Grammar rule.Result) (g : Grammar α)
    (c : Cursor) : Growing fun k => g.account (readWithin bodies k) c :=
  fun _ _ h => account_grows (readWithin_grows bodies h) g c

/-- Whatever is alike to an account's outcome ends as the account does. -/
theorem Account.alike_cases {A : Account α} {s : State} {r : Outcome α}
    (h : (A.lift s).Alike r) :
    (∃ a c t, A.ending = .value a c ∧ r = .value a t ∧ (A.stateAfter s).Alike t) ∨
    (∃ c t, A.ending = .mismatch c ∧ r = .mismatch t ∧ (A.stateAfter s).Alike t) ∨
    (∃ a c t, A.ending = .abort a c ∧ r = .abort { a with rules := s.rules ++ a.rules } t ∧
      (A.stateAfter s).Alike t) := by
  unfold Account.lift at h
  cases he : A.ending <;> cases r <;> simp only [he, Outcome.Alike] at h
  · exact .inl ⟨_, _, _, rfl, by rw [h.1], h.2⟩
  · exact .inr (.inl ⟨_, _, rfl, rfl, h⟩)
  · exact .inr (.inr ⟨_, _, _, rfl, by rw [h.1], h.2⟩)

theorem Account.alike_value {A : Account α} {s t : State} {a : α}
    (h : (A.lift s).Alike (.value a t)) :
    A.ending = .value a t.cursor ∧ (A.stateAfter s).Alike t := by
  obtain ⟨b, c, u, he, hr, ht⟩ | ⟨c, u, he, hr, ht⟩ | ⟨b, c, u, he, hr, ht⟩ := alike_cases h
  · cases hr
    exact ⟨by rw [← ht.cursor, stateAfter_cursor, he]; rfl, ht⟩
  · cases hr
  · cases hr

theorem Account.alike_mismatch {A : Account α} {s t : State} (h : (A.lift s).Alike (.mismatch t)) :
    A.ending = .mismatch t.cursor ∧ (A.stateAfter s).Alike t := by
  obtain ⟨b, c, u, he, hr, ht⟩ | ⟨c, u, he, hr, ht⟩ | ⟨b, c, u, he, hr, ht⟩ := alike_cases h
  · cases hr
  · cases hr
    exact ⟨by rw [← ht.cursor, stateAfter_cursor, he]; rfl, ht⟩
  · cases hr

namespace Accounted

/-- A step that needs no stack. -/
theorem of_lift {A : Account α} {s : State} {r : Outcome α} (hA : ¬ A.Exhausted)
    (hr : A.lift s = r) (hs : r.state.Sound bodies source) :
    Accounted bodies source settings n (fun _ => A) s r :=
  ⟨hs, .inr (.inr ⟨n, Nat.le_refl n, hA, hr ▸ .refl _⟩)⟩

/-- The place where a parse cannot go on. -/
theorem halt (fault : Fault) (back : Nat) {s : State} (hs : s.Sound bodies source) :
    Accounted bodies source settings n (fun _ => .halt fault back s.cursor) s
      (s.abort (α := α) fault back) := by
  by_cases hf : fault = .stackExhausted
  · subst hf
    exact ⟨hs, .inr (.inl ⟨⟨_, _, rfl, rfl⟩, Account.halt_exhausted back s.cursor⟩)⟩
  · refine of_lift ?_ (Account.halt_lift fault back s) hs
    simpa [Account.Exhausted, Account.halt] using hf

theorem bind {acc : Nat → Account β} {next : Nat → β → Cursor → Account α} {s : State}
    {r : Outcome β} {f : β → State → Outcome α} (hg : Growing acc)
    (hn : ∀ b c, Growing fun k => next k b c)
    (h : Accounted bodies source settings n acc s r)
    (hf : ∀ b t, t.Sound bodies source →
      Accounted bodies source settings n (fun k => next k b t.cursor) t (f b t)) :
    Accounted bodies source settings n (fun k => (acc k).bind (next k)) s (r.andThen f) := by
  obtain ⟨hs, ⟨hd, limit, a, t, rfl, hl⟩ | ⟨⟨a, t, rfl, ha⟩, he⟩ | ⟨k, hk, hx, hr⟩⟩ := h
  · exact ⟨hs, .inl ⟨hd, limit, a, t, rfl, hl⟩⟩
  · exact ⟨hs, .inr (.inl ⟨⟨a, t, rfl, ha⟩, he.bind _⟩)⟩
  obtain ⟨b, c, t, he, rfl, ht⟩ | ⟨c, t, he, rfl, ht⟩ | ⟨a, c, t, he, rfl, ht⟩ :=
    Account.alike_cases hr
  · have hc : t.cursor = c := by rw [← ht.cursor, Account.stateAfter_cursor, he]; rfl
    obtain ⟨hs', hends⟩ := hf b t hs
    refine ⟨hs', ?_⟩
    rw [hc] at hends
    obtain hd | ⟨hx', hn'⟩ | ⟨k', hk', hx', hr'⟩ := hends
    · exact .inl hd
    · refine .inr (.inl ⟨hx', ?_⟩)
      obtain hn | hn := hg n k hk
      · exact hn.bind _
      · exact hn'.bind_value (hn ▸ he)
    · have hK : (acc (max k k')).bind (next (max k k')) = (next k' b c).after (acc k).misses := by
        rw [hg.eq (Nat.le_max_left k k') hx]
        simp only [Account.bind, he, (hn b c).eq (Nat.le_max_right k k') hx']
      refine .inr (.inr ⟨max k k', by omega, ?_, ?_⟩)
      · rw [hK]
        exact hx'
      · rw [hK, Account.after_lift]
        exact (Account.lift_alike _ ht).trans hr'
  · refine ⟨hs, .inr (.inr ⟨k, hk, ?_, ?_⟩)⟩
    · simp [Account.Exhausted, Account.bind, he]
    · rw [Account.bind_lift, Account.lift, he]
      exact ht
  · refine ⟨hs, .inr (.inr ⟨k, hk, ?_, ?_⟩)⟩
    · simpa [Account.Exhausted, Account.bind, he] using hx
    · rw [Account.bind_lift, Account.lift, he]
      exact ⟨rfl, ht⟩

theorem orElse {acc acc' : Nat → Account α} {s : State} {r : Outcome α}
    {f : State → Outcome α} (hg : Growing acc) (hn : Growing acc')
    (h : Accounted bodies source settings n acc s r) (hplace : s.cursor.Of source)
    (hf : ∀ t, t.Sound bodies source → t.cursor = s.cursor →
      Accounted bodies source settings n acc' t (f t)) :
    Accounted bodies source settings n (fun k => (acc k).orElse (acc' k)) s
      (.orRetry s.cursor f r) := by
  obtain ⟨hs, ⟨hd, limit, a, t, rfl, hl⟩ | ⟨⟨a, t, rfl, ha⟩, he⟩ | ⟨k, hk, hx, hr⟩⟩ := h
  · exact ⟨hs, .inl ⟨hd, limit, a, t, rfl, hl⟩⟩
  · exact ⟨hs, .inr (.inl ⟨⟨a, t, rfl, ha⟩, he.orElse _⟩)⟩
  obtain ⟨b, c, t, he, rfl, ht⟩ | ⟨c, t, he, rfl, ht⟩ | ⟨a, c, t, he, rfl, ht⟩ :=
    Account.alike_cases hr
  · refine ⟨hs, .inr (.inr ⟨k, hk, ?_, ?_⟩)⟩
    · simp [Account.Exhausted, Account.orElse, he]
    · rw [Account.orElse_lift, Account.lift, he]
      exact ⟨rfl, ht⟩
  · obtain ⟨hs', hends⟩ := hf (t.moveTo s.cursor) (hs.moveTo hplace) rfl
    refine ⟨hs', ?_⟩
    obtain hd | ⟨hx', hn'⟩ | ⟨k', hk', hx', hr'⟩ := hends
    · exact .inl hd
    · refine .inr (.inl ⟨hx', ?_⟩)
      obtain hn | hn := hg n k hk
      · exact hn.orElse _
      · exact hn'.orElse_mismatch (hn ▸ he)
    · have hK : (acc (max k k')).orElse (acc' (max k k')) = (acc' k').after (acc k).misses := by
        rw [hg.eq (Nat.le_max_left k k') hx]
        simp only [Account.orElse, he, hn.eq (Nat.le_max_right k k') hx']
      refine .inr (.inr ⟨max k k', by omega, ?_, ?_⟩)
      · rw [hK]
        exact hx'
      · rw [hK, Account.after_lift_moveTo]
        refine (Account.lift_alike _ ?_).trans hr'
        exact ⟨rfl, ht.depth, ht.active, ht.report⟩
  · refine ⟨hs, .inr (.inr ⟨k, hk, ?_, ?_⟩)⟩
    · simpa [Account.Exhausted, Account.orElse, he] using hx
    · rw [Account.orElse_lift, Account.lift, he]
      exact ⟨rfl, ht⟩

theorem iterate {run : σ → State → Outcome (σ ⊕ α)} {read : Nat → σ → Cursor → Account (σ ⊕ α)}
    (hg : ∀ state c, Growing fun k => read k state c)
    (h : ∀ state t, t.Sound bodies source →
      Accounted bodies source settings n (fun k => read k state t.cursor) t (run state t))
    (bound : List Char) (state : σ) (s : State) (hs : s.Sound bodies source) :
    Accounted bodies source settings n
      (fun k => Account.iterateWithin (read k) bound state s.cursor) s
      (iterateWithin run bound state s) := by
  induction bound generalizing state s with
  | nil =>
    unfold Account.iterateWithin
    rw [iterateWithin_step]
    refine bind (hg state s.cursor) (fun x c => ?_) (h state s hs) fun x t ht => ?_
    · cases x <;> exact fun _ _ _ => .refl _
    · cases x with
      | inl next => exact halt .stackExhausted 0 ht
      | inr a => exact of_lift (by simp [Account.Exhausted]) rfl ht
  | cons _ bound ih =>
    unfold Account.iterateWithin
    rw [iterateWithin_step]
    refine bind (hg state s.cursor) (fun x c => ?_) (h state s hs) fun x t ht => ?_
    · cases x with
      | inl next => exact fun m k hk => Account.iterateWithin_grows (fun st c => hg st c m k hk) ..
      | inr a => exact fun _ _ _ => .refl _
    · cases x with
      | inl next => exact ih next t ht
      | inr a => exact of_lift (by simp [Account.Exhausted]) rfl ht

theorem nested {acc : Nat → Account α} {s : State} {body : State → Outcome α}
    (hs : s.Sound bodies source)
    (h : Accounted bodies source settings n acc (s.withDepth (s.depth + 1))
      (body (s.withDepth (s.depth + 1)))) :
    Accounted bodies source settings n acc s (nestedWithin settings body s) := by
  unfold nestedWithin
  dsimp only
  split
  · obtain ⟨hs', hends⟩ := h
    refine ⟨?_, ?_⟩
    · generalize body (s.withDepth (s.depth + 1)) = r at hs'
      cases r <;> exact hs'.withDepth _
    · obtain ⟨hd, limit, a, t, hr, ha⟩ | ⟨⟨a, t, hr, ha⟩, hx⟩ | ⟨k, hk, hx, hr⟩ := hends
      · exact .inl ⟨hd, limit, a, _, by rw [hr]; rfl, ha⟩
      · exact .inr (.inl ⟨⟨a, _, by rw [hr]; rfl, ha⟩, hx⟩)
      · refine .inr (.inr ⟨k, hk, hx, ?_⟩)
        rw [← Account.lift_withDepth]
        exact hr.mapState fun ht =>
          ⟨ht.cursor, by simp [State.withDepth, ht.depth], ht.active, ht.report⟩
  · rename_i hd
    refine ⟨hs, .inl ⟨fun hn => ?_, _, _, _, rfl, rfl⟩⟩
    simp [Settings.admits, hn] at hd

end Accounted

/-- A part of a grammar does what its account says if the rules do. -/
theorem run_accounted {caller : Caller}
    (h : ∀ rule s, s.Sound bodies source →
      Accounted bodies source settings n (fun k => readWithin bodies k rule s.cursor) s
        (caller rule s))
    (g : Grammar α) (s : State) (hs : s.Sound bodies source) :
    Accounted bodies source settings n (fun k => g.account (readWithin bodies k) s.cursor) s
      (g.run settings caller s) := by
  induction g generalizing s with
  | bind first next ihf ihn =>
    rw [run_bind]
    exact (ihf s hs).bind (growing_account bodies first s.cursor)
      (fun b c => growing_account bodies (next b) c) fun b t ht => ihn b t ht
  | orElse first second ihf ihs =>
    exact (ihf s hs).orElse (growing_account bodies first s.cursor)
      (growing_account bodies second s.cursor) hs.place fun t ht hc => hc ▸ ihs t ht
  | call rule => exact h rule s hs
  | nested body ih => exact .nested hs (ih _ (hs.withDepth (s.depth + 1)))
  | iterate state step ih =>
    exact Accounted.iterate (fun state c => growing_account bodies (step state) c) ih _ state s hs
  | accept literal =>
    simp only [Grammar.account, Grammar.run]
    split
    · exact .of_lift (by simp [Account.Exhausted]) rfl (hs.moveTo (hs.place.advance _))
    · exact .of_lift (by simp [Account.Exhausted]) rfl hs
  | advance count =>
    exact .of_lift (by simp [Account.Exhausted]) rfl (hs.moveTo (hs.place.advance _))
  | fail expectation =>
    refine .of_lift (by simp [Account.Exhausted]) ?_ (hs.note expectation)
    simp [Grammar.run, Account.lift, Account.stateAfter, State.note, Ending.stop]
  | abort fault back => exact .halt fault back hs
  | _ => exact .of_lift (by simp [Account.Exhausted]) rfl hs

/-! ## Rules -/

/-- Storing an outcome changes nothing but the memo. -/
theorem recordOutcome_alike {rule : Rule} {r q : Outcome rule.Result} (h : r.Alike q)
    (memoize : Bool) (start : Cursor) :
    (recordOutcome false rule start r).Alike (recordOutcome memoize rule start q) := by
  cases r <;> cases q <;> cases memoize <;> simp only [Outcome.Alike, recordOutcome] at *
  · exact h
  · exact ⟨h.1, h.2.cursor, h.2.depth, h.2.active, h.2.report⟩
  · exact ⟨rfl, h.depth, h.active, h.report⟩
  · exact ⟨rfl, h.depth, h.active, h.report⟩
  · exact h
  · exact h

theorem State.Alike.leave {s t : State} (h : s.Alike t) : s.leave.Alike t.leave :=
  ⟨h.cursor, h.depth, congrArg List.tail h.active, h.report⟩

/-- What a rule does may be stored where the rule began, once its failures are noted. -/
theorem sound_entry {rule : Rule} {s t : State} (hs : s.Sound bodies source) {k : Nat}
    (ht : ((readWithin bodies k rule s.cursor).stateAfter s).Alike t) {entry : MemoEntry rule}
    (he : entry.Holds (readWithin bodies k rule s.cursor).ending) :
    entry.Sound bodies source t.report s.cursor.offset := by
  refine ⟨k, ?_⟩
  rw [← show s.cursor = .atOffset source s.cursor.offset from hs.place]
  refine ⟨he, fun m hm => ?_⟩
  rw [← ht.report, Account.stateAfter_report]
  exact Report.covers_addAll _ hm

theorem runRule_accounted {rule : Rule} {s : State} {body : State → Outcome rule.Result}
    (hs : s.Sound bodies source)
    (h : Accounted bodies source settings n
      (fun k => (bodies rule).account (readWithin bodies k) s.cursor) (s.enter rule)
      (body (s.enter rule))) :
    Accounted bodies source settings (n + 1) (fun k => readWithin bodies k rule s.cursor) s
      (runRule settings rule body s) := by
  obtain ⟨hs', ⟨hd, limit, a, t, hr, ha⟩ | ⟨⟨a, t, hr, ha⟩, hx⟩ | ⟨k, hk, hx, hr⟩⟩ := h
  · rw [hr] at hs'
    rw [runRule, hr]
    exact ⟨hs'.leave, .inl ⟨hd, limit, a, _, rfl, ha⟩⟩
  · rw [hr] at hs'
    rw [runRule, hr]
    exact ⟨hs'.leave, .inr (.inl ⟨⟨a, _, rfl, ha⟩, Account.within_exhausted.mpr hx⟩)⟩
  have hA : ((readWithin bodies (k + 1) rule s.cursor).lift s).Alike
      (runRule settings rule body s) := by
    rw [readWithin, Account.within_lift]
    exact recordOutcome_alike (hr.mapState .leave) _ _
  refine ⟨?_, .inr (.inr ⟨k + 1, by omega, fun h => hx (Account.within_exhausted.mp h), hA⟩)⟩
  -- What is left is that the new entry is sound.
  rw [runRule] at hA ⊢
  cases hb : body (s.enter rule) with
  | value b t =>
    rw [hb] at hs' hA
    obtain ⟨he, ht⟩ := Account.alike_value hA
    cases hm : settings.memoize with
    | false => exact hs'.leave
    | true =>
      rw [hm] at he ht
      exact hs'.leave.store (sound_entry hs ht he)
  | mismatch t =>
    rw [hb] at hs' hA
    obtain ⟨he, ht⟩ := Account.alike_mismatch hA
    cases hm : settings.memoize with
    | false => exact hs'.leave.moveTo hs.place
    | true =>
      rw [hm] at he ht
      exact (hs'.leave.moveTo hs.place).store (sound_entry hs ht ⟨_, he⟩)
  | abort a t =>
    rw [hb] at hs'
    exact hs'.leave

/-- A rule whose account is known, and whose failures are noted, need not be run. -/
theorem known_accounted {rule : Rule} {s : State} {r : Outcome rule.Result} {k : Nat}
    (hr : ((readWithin bodies k rule s.cursor).lift s).Alike r)
    (hx : ¬ (readWithin bodies k rule s.cursor).Exhausted) (hs : r.state.Sound bodies source) :
    Accounted bodies source settings n (fun k => readWithin bodies k rule s.cursor) s r := by
  have hK := (readWithin_grows bodies (Nat.le_max_right n k) rule s.cursor).resolve_left hx
  exact ⟨hs, .inr (.inr ⟨max n k, Nat.le_max_left n k, hK ▸ hx, hK ▸ hr⟩)⟩

/-- A recalled outcome is what the rule would do again. -/
theorem recallRule_accounted {rule : Rule} {s : State} {body : State → Outcome rule.Result}
    (hs : s.Sound bodies source)
    (h : Accounted bodies source settings n
      (fun k => (bodies rule).account (readWithin bodies k) s.cursor) (s.enter rule)
      (body (s.enter rule))) :
    Accounted bodies source settings (n + 1) (fun k => readWithin bodies k rule s.cursor) s
      (recallRule settings rule body s) := by
  have hplace : s.cursor = .atOffset source s.cursor.offset := hs.place
  have hkeep : ∀ {k}, (∀ m ∈ (readWithin bodies k rule s.cursor).misses, s.report.Covers m) →
      ((readWithin bodies k rule s.cursor).stateAfter s).Alike
        (s.moveTo (readWithin bodies k rule s.cursor).ending.stop) :=
    fun hm => ⟨rfl, rfl, rfl, by rw [Account.stateAfter_report, Report.addAll_of_covers hm]; rfl⟩
  unfold recallRule
  split
  · split
    · rename_i a stop hk
      obtain ⟨k, he, hm⟩ := hs.kept _ _ _ hk
      rw [← hplace] at he hm
      have he : (readWithin bodies k rule s.cursor).ending = .value a stop := he
      have hend := readWithin_place bodies k rule s.cursor hs.place
      rw [Account.EndsIn, he] at hend
      have hx : ¬ (readWithin bodies k rule s.cursor).Exhausted := by simp [Account.Exhausted, he]
      have hs' := hkeep hm
      rw [he] at hs'
      refine known_accounted ?_ hx (hs.moveTo hend)
      rw [Account.lift, he]
      exact ⟨rfl, hs'⟩
    · rename_i hk
      obtain ⟨k, ⟨c, he⟩, hm⟩ := hs.kept _ _ _ hk
      rw [← hplace] at he hm
      have hc : c = s.cursor := readWithin_mismatch he
      have hx : ¬ (readWithin bodies k rule s.cursor).Exhausted := by simp [Account.Exhausted, he]
      have hs' := hkeep hm
      rw [he, hc] at hs'
      refine known_accounted ?_ hx hs
      rw [Account.lift, he]
      exact hs'
    · exact runRule_accounted hs h
  · exact runRule_accounted hs h

theorem callWithin_accounted (n : Nat) (rule : Rule) (s : State) (hs : s.Sound bodies source) :
    Accounted bodies source settings n (fun k => readWithin bodies k rule s.cursor) s
      (callWithin bodies settings n rule s) := by
  induction n generalizing rule s with
  | zero =>
    refine ⟨hs, .inr (.inl ⟨⟨_, _, rfl, rfl⟩, Account.halt_exhausted 0 s.cursor⟩)⟩
  | succ n ih =>
    exact recallRule_accounted hs (run_accounted ih (bodies rule) (s.enter rule) (hs.enter rule))

theorem start_accounted (settings : Settings) (g : Grammar α) (s : State)
    (hs : s.Sound Rule.body source) :
    Accounted Rule.body source settings settings.stack
      (fun k => g.account (readWithin Rule.body k) s.cursor) s (g.start settings s) :=
  run_accounted (callWithin_accounted settings.stack) g s hs

end DhallSyntax
