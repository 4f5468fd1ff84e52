import DhallSyntax.Proofs.Parser.DepthGuard
import DhallSyntax.Proofs.Reading.Basic

/-!
Parses and readings. Main statements:

* `run_endsAs`, `start_endsAs`: a run, with whatever bounds and with or without a memo, ends as the reading of
  the source says, unless it is too deep or out of stack;
* `parse_or_nests`, `parse_of_read`: what the whole source is read as is what a parse yields that
  keeps within its bounds, and one does whose bounds are large enough;
* `parsesAs_of_read`, `parsesAs_of_read_mismatch`: the same in one for what is read and for what is
  not.
-/

namespace DhallSyntax

variable {α : Type}

/-- Whether an outcome is what a reading says. -/
def Outcome.EndsAs (r : Outcome α) (q : Reading α) : Prop :=
  match r with
  | value a s => q = .value a s.cursor.rest
  | mismatch _ => q = .mismatch
  | abort a _ => q = .abort a.fault

theorem Account.endsAs_of_alike {A : Account α} {s : State} {r : Outcome α}
    (h : (A.lift s).Alike r) : r.EndsAs A.ending.reading := by
  obtain ⟨a, c, t, he, rfl, ht⟩ | ⟨c, t, he, rfl, -⟩ | ⟨a, c, t, he, rfl, -⟩ :=
    Account.alike_cases h
  · have hc : t.cursor = c := by rw [← ht.cursor, Account.stateAfter_cursor, he]; rfl
    rw [he, Outcome.EndsAs, hc]
    rfl
  · rw [he]
    rfl
  · rw [he]
    rfl

/-- What is known of a run from a state whose memo is sound. -/
theorem run_endsAs (settings : Settings) {source : List Char} {s : State}
    (hs : s.Sound Rule.body source) (hb : s.cursor.isBeyond = false) (n : Nat) (g : Grammar α) :
    (g.run settings (callWithin Rule.body settings n) s).TooDeep ∨
      (g.run settings (callWithin Rule.body settings n) s).Exhausted ∨
      (g.run settings (callWithin Rule.body settings n) s).EndsAs (g.read s.cursor.rest) ∧
        (g.run settings (callWithin Rule.body settings n) s).state.cursor.isBeyond = false := by
  obtain ⟨-, ⟨-, hd⟩ | ⟨hx, -⟩ | ⟨k, -, hx, hr⟩⟩ := run_accounted (callWithin_accounted n) g s hs
  · exact .inl hd
  · exact .inr (.inl hx)
  · obtain ⟨m, hm⟩ := g.readBy_settles s.cursor.rest
    have hgrow := (growing_account Rule.body g s.cursor).eq (Nat.le_max_left k m) hx
    have hends := account_endsAs (readWithin_endsAs (max k m)) g s.cursor hb
    have hread := hm (max k m) (Nat.le_max_right k m)
    dsimp only at hread
    rw [hgrow, hread] at hends
    have hcursor : (g.run settings (callWithin Rule.body settings n) s).state.cursor =
        (g.account (readWithin Rule.body k) s.cursor).ending.stop := by
      obtain ⟨a, c, t, he, hq, ht⟩ | ⟨c, t, he, hq, ht⟩ | ⟨a, c, t, he, hq, ht⟩ :=
        Account.alike_cases hr
      all_goals
        rw [hq, ← Account.stateAfter_cursor _ s]
        exact ht.cursor.symm
    refine .inr (.inr ⟨?_, hcursor ▸ hends.within⟩)
    rw [← hends.reading]
    exact Account.endsAs_of_alike hr

theorem start_endsAs (settings : Settings) (g : Grammar α) (source : List Char) :
    (g.start settings (.initial source)).TooDeep ∨
      (g.start settings (.initial source)).Exhausted ∨
      (g.start settings (.initial source)).EndsAs (g.read source) := by
  have hs : (State.initial source).Sound Rule.body source := .initial Rule.body source
  obtain hd | hx | ⟨he, -⟩ := run_endsAs settings hs rfl settings.stack g
  · exact .inl hd
  · exact .inr (.inl hx)
  · exact .inr (.inr he)

/-! ## What a parse tells of the reading -/

theorem runFrom_ok {settings : Settings} {source : List Char} {g : Grammar α} {a : α}
    (h : (runFrom settings source g).result = .ok a) :
    g.read source = .value a (runFrom settings source g).state.cursor.rest := by
  have hr := start_endsAs settings g source
  unfold runFrom at *
  cases hg : g.start settings (.initial source) with
  | value b s =>
    rw [hg] at h hr
    cases h
    obtain ⟨_, _, _, hr, -⟩ | ⟨_, _, hr, -⟩ | hr := hr
    · cases hr
    · cases hr
    · exact hr
  | mismatch s => rw [hg] at h; cases h
  | abort b s => rw [hg] at h; cases h

theorem runFrom_numberRange {settings : Settings} {source : List Char} {g : Grammar α}
    (h : (runFrom settings source g).result = .error .numberRange) :
    g.read source = .abort .numberRange := by
  have hr := start_endsAs settings g source
  unfold runFrom at h
  cases hg : g.start settings (.initial source) with
  | value b s => rw [hg] at h; cases h
  | mismatch s => rw [hg] at h; cases h
  | abort b s =>
    rw [hg] at h hr
    have hf : b.fault = .numberRange := by
      cases hb : b.fault <;> simp [ParseError.ofAbort, hb] at h ⊢
    obtain ⟨_, _, _, hr, ha⟩ | ⟨_, _, hr, ha⟩ | hr := hr
    · cases hr
      rw [hf] at ha
      cases ha
    · cases hr
      rw [hf] at ha
      cases ha
    · exact hf ▸ hr

theorem parse_ok {settings : Settings} {source : String} {e : Expr}
    (h : parse settings source = .ok e) :
    Grammar.completeExpression.read source.toList = .value e [] := by
  unfold parse parseWith at h
  dsimp only at h
  cases hr : (runFrom settings source.toList Grammar.completeExpression).result with
  | error e => rw [hr] at h; cases h
  | ok e' =>
    rw [hr] at h
    dsimp only at h
    split at h
    · rename_i hend
      cases h
      rw [runFrom_ok hr, List.isEmpty_iff.mp hend]
    · cases h

theorem parsePrefix_ok {settings : Settings} {source : String} {p : Prefix}
    (h : parsePrefix settings source = .ok p) :
    ∃ rest, Grammar.leadingExpression.read source.toList = .value p.expression rest := by
  unfold parsePrefix parsePrefixWith at h
  dsimp only at h
  cases hr : (runFrom settings source.toList Grammar.leadingExpression).result with
  | error e => rw [hr] at h; cases h
  | ok e =>
    rw [hr] at h
    cases h
    exact ⟨_, runFrom_ok hr⟩

theorem parse_numberRange {settings : Settings} {source : String}
    (h : parse settings source = .error .numberRange) :
    Grammar.completeExpression.read source.toList = .abort .numberRange := by
  unfold parse parseWith at h
  dsimp only at h
  cases hr : (runFrom settings source.toList Grammar.completeExpression).result with
  | error e =>
    rw [hr] at h
    cases h
    exact runFrom_numberRange hr
  | ok e =>
    rw [hr] at h
    dsimp only at h
    split at h
    · cases h
    · simp only [ParseError.ofTrailing] at h
      cases h

theorem parsePrefix_numberRange {settings : Settings} {source : String}
    (h : parsePrefix settings source = .error .numberRange) :
    Grammar.leadingExpression.read source.toList = .abort .numberRange := by
  unfold parsePrefix parsePrefixWith at h
  dsimp only at h
  cases hr : (runFrom settings source.toList Grammar.leadingExpression).result with
  | error e =>
    rw [hr] at h
    cases h
    exact runFrom_numberRange hr
  | ok e => rw [hr] at h; cases h

/-- Trees can be compared, errors need not be. -/
theorem eq_ok_of_toOption {r : Except ParseError α} {a : α} (h : r.toOption = some a) :
    r = .ok a := by
  cases r with
  | error e => cases h
  | ok b => exact congrArg Except.ok (Option.some.inj h)

/-! ## What the reading tells of parses -/

/-- A number that no state of a run exceeds in its open expressions. -/
theorem exists_shallow (moments : List State) : ∃ m, ∀ m' ≥ m, Shallow m' moments := by
  induction moments with
  | nil => exact ⟨0, fun _ _ _ h => nomatch h⟩
  | cons t moments ih =>
    obtain ⟨m, hm⟩ := ih
    refine ⟨max t.depth m, fun m' hm' => ?_⟩
    exact List.forall_mem_cons.mpr ⟨by omega, hm m' (by omega)⟩

/-- With enough stack and a bound that is large enough a run without a memo ends as the reading
says. -/
theorem start_of_read (g : Grammar α) (source : List Char) :
    ∃ n, ∀ stack ≥ n, ∃ m, ∀ m' ≥ m,
      (g.start ⟨some m', false, stack⟩ (.initial source)).EndsAs (g.read source) := by
  obtain ⟨n, hn⟩ := g.account_settles source
  refine ⟨n, fun stack hs => ?_⟩
  obtain ⟨m, hm⟩ := exists_shallow (g.history ⟨none, false, stack⟩ (.initial source))
  refine ⟨m, fun m' hm' => ?_⟩
  let bounded : Settings := ⟨some m', false, stack⟩
  have hb : Bounds m' _ _ (g.start bounded (.initial source)) :=
    start_bounded rfl g (.initial source) (Nat.zero_le m')
  obtain ⟨-, hb⟩ | ⟨hdeep, -⟩ := hb
  case inr => exact absurd (hm m' hm') hdeep
  have hfree : g.start bounded.unlimited (.initial source) =
      (g.account (readWithin Rule.body stack) (.start source)).lift (.initial source) :=
    start_eq_lift rfl rfl g _
  rw [hb, ← hn stack hs, hfree]
  exact Account.endsAs_of_alike (.refl _)

theorem Agree.eq_ok {r : Except ParseError α} {a : α} (h : Agree (.ok a) r) : r = .ok a := by
  cases h
  rfl

theorem Agree.eq_numberRange {r : Except ParseError α} (h : Agree (.error .numberRange) r) :
    r = .error .numberRange := by
  cases h with
  | @error e e' h => cases e' <;> simp_all [ParseError.Same]

theorem parse_of_endsAs {settings : Settings} {source : String} {e : Expr}
    (h : (Grammar.completeExpression.start settings (.initial source.toList)).EndsAs
      (.value e [])) :
    parse settings source = .ok e := by
  unfold parse parseWith runFrom
  cases hg : Grammar.completeExpression.start settings (.initial source.toList) with
  | value a s =>
    rw [hg, Outcome.EndsAs] at h
    injection h with ha hrest
    simp [← ha, ← hrest]
  | mismatch s => rw [hg] at h; cases h
  | abort a s => rw [hg] at h; cases h

/-- A parse with whatever bounds ends as the reading of the source says, unless it exceeds one of
them. -/
theorem endsAs_or_nests (settings : Settings) (source : String) :
    (Grammar.completeExpression.start settings (.initial source.toList)).EndsAs
        (Grammar.completeExpression.read source.toList) ∨
      nests (parse settings source) = true := by
  cases hn : nests (parse settings source) with
  | true => exact .inr rfl
  | false =>
    have hkept := nests_of_parse hn
    obtain hd | hx | hends := start_endsAs settings Grammar.completeExpression source.toList
    · cases hkept.symm.trans (runFrom_nests (.inl hd))
    · cases hkept.symm.trans (runFrom_nests (.inr hx))
    · exact .inl hends

theorem parse_or_nests {source : String} {e : Expr}
    (h : Grammar.completeExpression.read source.toList = .value e []) (settings : Settings) :
    parse settings source = .ok e ∨ nests (parse settings source) = true :=
  (endsAs_or_nests settings source).imp_left fun hends => parse_of_endsAs (h ▸ hends)

theorem parse_of_read {source : String} {e : Expr}
    (h : Grammar.completeExpression.read source.toList = .value e []) :
    ∃ n, ∀ stack ≥ n, ∃ m, ∀ m' ≥ m, ∀ memoize,
      parse ⟨some m', memoize, stack⟩ source = .ok e := by
  obtain ⟨n, hn⟩ := start_of_read Grammar.completeExpression source.toList
  refine ⟨n, fun stack hs => ?_⟩
  obtain ⟨m, hm⟩ := hn stack hs
  refine ⟨m, fun m' hm' => ?_⟩
  have hplain : parse ⟨some m', false, stack⟩ source = .ok e :=
    parse_of_endsAs (h ▸ hm m' hm')
  intro memoize
  cases memoize with
  | false => exact hplain
  | true =>
    refine Agree.eq_ok (hplain ▸ parse_memo_agree ?_)
    rw [hplain]
    rfl

/-- The result of a parse is that no alternative matches. -/
def IsMismatch (result : Except ParseError Expr) : Prop :=
  ∃ error : SyntaxError, result = .error (.source error) ∧ error.kind = .mismatch

theorem isMismatch_of_endsAs {settings : Settings} {source : String}
    (h : (Grammar.completeExpression.start settings (.initial source.toList)).EndsAs .mismatch) :
    IsMismatch (parse settings source) := by
  unfold parse parseWith runFrom
  cases hg : Grammar.completeExpression.start settings (.initial source.toList) with
  | value a s => rw [hg] at h; cases h
  | mismatch s => exact ⟨_, rfl, rfl⟩
  | abort a s => rw [hg] at h; cases h

theorem Agree.isMismatch {r r' : Except ParseError Expr} (h : Agree r r') (hr : IsMismatch r) :
    IsMismatch r' := by
  obtain ⟨error, rfl, hkind⟩ := hr
  cases h with
  | @error _ e' h =>
    cases e' with
    | source error' => exact ⟨error', rfl, h.1.symm.trans hkind⟩
    | stackExhausted => cases h
    | numberRange => cases h

/-- The parses of a source all have one kind of result, apart from those that exceed a bound. With
bounds that are large enough none does. -/
structure ParsesAs (source : String) (Good : Except ParseError Expr → Prop) : Prop where
  within : ∀ settings, Good (parse settings source) ∨ nests (parse settings source) = true
  ample : ∃ n, ∀ stack ≥ n, ∃ m, ∀ m' ≥ m, ∀ memoize, Good (parse ⟨some m', memoize, stack⟩ source)

theorem parsesAs_of_read {source : String} {e : Expr}
    (h : Grammar.completeExpression.read source.toList = .value e []) :
    ParsesAs source (· = .ok e) :=
  ⟨parse_or_nests h, parse_of_read h⟩

theorem parsesAs_of_read_mismatch {source : String}
    (h : Grammar.completeExpression.read source.toList = .mismatch) :
    ParsesAs source IsMismatch where
  within settings :=
    (endsAs_or_nests settings source).imp_left fun hends => isMismatch_of_endsAs (h ▸ hends)
  ample := by
    obtain ⟨n, hn⟩ := start_of_read Grammar.completeExpression source.toList
    refine ⟨n, fun stack hs => ?_⟩
    obtain ⟨m, hm⟩ := hn stack hs
    refine ⟨m, fun m' hm' => ?_⟩
    have hplain : IsMismatch (parse ⟨some m', false, stack⟩ source) :=
      isMismatch_of_endsAs (h ▸ hm m' hm')
    intro memoize
    cases memoize with
    | false => exact hplain
    | true =>
      refine (parse_memo_agree ?_).isMismatch hplain
      obtain ⟨error, hr, hkind⟩ := hplain
      rw [hr, nests, ParseError.isNesting, hkind]
      rfl

theorem numberRange_of_read {source : String}
    (h : Grammar.completeExpression.read source.toList = .abort .numberRange)
    (h' : Grammar.leadingExpression.read source.toList = .abort .numberRange) :
    ∃ n, ∀ stack ≥ n, ∃ m, ∀ m' ≥ m, ∀ memoize,
      parse ⟨some m', memoize, stack⟩ source = .error .numberRange ∧
        parsePrefix ⟨some m', memoize, stack⟩ source = .error .numberRange := by
  have hends : ∀ {α : Type} {g : Grammar α} {m stack : Nat},
      (g.start ⟨some m, false, stack⟩ (.initial source.toList)).EndsAs (.abort .numberRange) →
      (runFrom ⟨some m, false, stack⟩ source.toList g).result = .error .numberRange := by
    intro α g m stack hr
    unfold runFrom
    cases hg : g.start ⟨some m, false, stack⟩ (.initial source.toList) with
    | value a s => rw [hg] at hr; cases hr
    | mismatch s => rw [hg] at hr; cases hr
    | abort a s =>
      rw [hg, Outcome.EndsAs] at hr
      injection hr with hf
      simp [ParseError.ofAbort, ← hf]
  obtain ⟨n, hn⟩ := start_of_read Grammar.completeExpression source.toList
  obtain ⟨n', hn'⟩ := start_of_read Grammar.leadingExpression source.toList
  refine ⟨max n n', fun stack hs => ?_⟩
  obtain ⟨m, hm⟩ := hn stack (by omega)
  obtain ⟨k, hk⟩ := hn' stack (by omega)
  refine ⟨max m k, fun m' hm' => ?_⟩
  have hp : parse ⟨some m', false, stack⟩ source = .error .numberRange := by
    unfold parse parseWith
    dsimp only
    rw [hends (h ▸ hm m' (by omega))]
  have hp' : parsePrefix ⟨some m', false, stack⟩ source = .error .numberRange := by
    unfold parsePrefix parsePrefixWith
    dsimp only
    rw [hends (h' ▸ hk m' (by omega))]
    rfl
  intro memoize
  cases memoize with
  | false => exact ⟨hp, hp'⟩
  | true =>
    constructor
    · refine Agree.eq_numberRange (hp ▸ parse_memo_agree ?_)
      rw [hp]
      rfl
    · refine Agree.eq_numberRange (hp' ▸ parsePrefix_memo_agree ?_)
      rw [hp']
      rfl

end DhallSyntax
