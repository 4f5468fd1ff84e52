import Mathlib.Data.List.ProdSigma
import DhallSyntax.Proofs.Context.Keys
import DhallSyntax.Proofs.Parser.Termination

/-!
How often rules are run. With a memo the body of a rule is run at most once from each place: its
outcome is stored when it ends, and it does not come to the same rule at the same place before.
Main statements:

* `callWithin_once`: the runs that a rule comes to are all different, none was known to the memo
  before, and all are known to it afterwards;
* `parse_runs_once`: so it is in a whole parse, which therefore runs bodies, and stores outcomes, at
  most once for each rule and each place of the source.
-/

namespace DhallSyntax

variable {α β σ : Type} {settings : Settings} {source : List Char} {n : Nat}

/-! ## The runs of bodies -/

/-- The run of a rule's body: where it began, and the memo when it had ended. -/
structure BodyRun where
  rule : Rule
  offset : Nat
  memo : Memo

/-- The key that the outcome of a body is stored under. -/
def BodyRun.key (run : BodyRun) : Rule × Nat := (run.rule, run.offset)

/-- The runs that come after a value. -/
def Outcome.runsAfterValue (r : Outcome β) (next : β → State → List BodyRun) : List BodyRun :=
  match r with
  | .value b s => next b s
  | _ => []

/-- The runs that come after there was no match. -/
def Outcome.runsAfterMismatch (r : Outcome β) (next : State → List BodyRun) : List BodyRun :=
  match r with
  | .mismatch s => next s
  | _ => []

/-- The runs that a rule comes to. -/
abbrev Tracer := Rule → State → List BodyRun

/-- The runs that a repetition comes to. -/
def iterateRuns (run : σ → State → Outcome (σ ⊕ α)) (runs : σ → State → List BodyRun) :
    (bound : List Char) → σ → State → List BodyRun
  | bound, state, s =>
    runs state s ++ (run state s).runsAfterValue fun
      | .inr _, _ => []
      | .inl next, t =>
        match bound with
        | [] => []
        | _ :: bound => iterateRuns run runs bound next t

/-- The runs that a part of a grammar comes to, in the order in which they begin. -/
def Grammar.runs (settings : Settings) (caller : Caller) (tracer : Tracer) {α : Type} :
    Grammar α → State → List BodyRun
  | .bind first next, s =>
    first.runs settings caller tracer s ++
      (first.run settings caller s).runsAfterValue fun b t =>
        (next b).runs settings caller tracer t
  | .orElse first second, s =>
    first.runs settings caller tracer s ++
      (first.run settings caller s).runsAfterMismatch fun t =>
        second.runs settings caller tracer (t.moveTo s.cursor)
  | .call rule, s => tracer rule s
  | .nested body, s =>
    if settings.admits (s.depth + 1) then
      body.runs settings caller tracer (s.withDepth (s.depth + 1))
    else []
  | .iterate state step, s =>
    iterateRuns (fun state s => (step state).run settings caller s)
      (fun state s => (step state).runs settings caller tracer s) s.cursor.rest state s
  | _, _ => []

open Grammar (happens_bind happens_orElse happens_nested happens_iterate happens_call)

/-- A memo has all that another one has, unchanged. -/
def Memo.Extends (memo memo' : Memo) : Prop :=
  ∀ rule offset, memo.knows rule offset = true →
    memo'.get? (rule, offset) = memo.get? (rule, offset)

namespace Memo.Extends

variable {memo memo' memo'' : Memo}

theorem refl (memo : Memo) : memo.Extends memo := fun _ _ _ => rfl

theorem knows (h : memo.Extends memo') {rule : Rule} {offset : Nat}
    (hk : memo.knows rule offset = true) : memo'.knows rule offset = true := by
  rw [Memo.knows, h rule offset hk]
  exact hk

theorem trans (h : memo.Extends memo') (h' : memo'.Extends memo'') : memo.Extends memo'' :=
  fun rule offset hk => (h' rule offset (h.knows hk)).trans (h rule offset hk)

/-- Storing an outcome that was not known changes none that was. -/
theorem insert {rule : Rule} {offset : Nat} (h : memo.knows rule offset = false)
    (entry : MemoEntry rule) : memo.Extends (memo.insert (rule, offset) entry) := by
  intro rule' offset' hk
  rw [Std.DTreeMap.get?_insert, dif_neg]
  intro he
  cases Std.LawfulEqCmp.compare_eq_iff_eq.mp he
  rw [h] at hk
  cases hk

end Memo.Extends

theorem mapState_memo {r : Outcome α} {f : State → State} (hf : ∀ t, (f t).memo = t.memo) :
    (r.mapState f).state.memo = r.state.memo := by
  cases r <;> exact hf _

/-- Recording an outcome that was not known changes none that was. -/
theorem extends_recordOutcome {memoize : Bool} {rule : Rule} {start : Cursor}
    {r : Outcome rule.Result} (h : r.state.memo.knows rule start.offset = false) :
    r.state.memo.Extends (recordOutcome memoize rule start r).state.memo := by
  cases r with
  | value a t =>
    cases memoize with
    | true => exact .insert h _
    | false => exact .refl _
  | mismatch t =>
    cases memoize with
    | true => exact .insert h _
    | false => exact .refl _
  | abort a t => exact .refl _

theorem isAbort_recordOutcome {memoize : Bool} {rule : Rule} {start : Cursor}
    {r : Outcome rule.Result} : (recordOutcome memoize rule start r).IsAbort ↔ r.IsAbort := by
  cases r <;> exact Iff.rfl

/-- The outcome of a rule is known when it is recorded. -/
theorem recordOutcome_knows {rule : Rule} {start : Cursor} {r : Outcome rule.Result}
    (h : ¬ r.IsAbort) :
    (recordOutcome true rule start r).state.memo.knows rule start.offset = true := by
  cases r with
  | value a t => simp [recordOutcome, Outcome.state, State.store, Memo.knows_insert]
  | mismatch t => simp [recordOutcome, Outcome.state, State.store, Memo.knows_insert]
  | abort a t => exact (h trivial).elim

/-- Nothing else becomes known then. -/
theorem knows_recordOutcome {memoize : Bool} {rule rule' : Rule} {start : Cursor} {offset : Nat}
    {r : Outcome rule.Result}
    (h : (recordOutcome memoize rule start r).state.memo.knows rule' offset = true) :
    r.state.memo.knows rule' offset = true ∨ (rule, start.offset) = (rule', offset) := by
  have hinsert : ∀ (memo : Memo) (entry : MemoEntry rule),
      Memo.knows (memo.insert (rule, start.offset) entry) rule' offset = true →
        memo.knows rule' offset = true ∨ (rule, start.offset) = (rule', offset) := by
    intro memo entry hk
    rw [Memo.knows_insert, Bool.or_eq_true, decide_eq_true_eq] at hk
    exact hk.symm
  cases r with
  | value a t =>
    cases memoize with
    | true => exact hinsert _ _ h
    | false => exact .inl h
  | mismatch t =>
    cases memoize with
    | true => exact hinsert _ _ h
    | false => exact .inl h
  | abort a t => exact .inl h

/-- What the runs of bodies have to do with the memo they begin with and with the one they leave:
they are all different and none was known, none is stored before its body has ended, and what is
known afterwards is what was known before and the outcomes of the runs. A parse that is given up
has stored only some of these. -/
structure Once (memo : Memo) (runs : List BodyRun) (r : Outcome α) : Prop where
  distinct : (runs.map BodyRun.key).Nodup
  fresh : ∀ run ∈ runs, memo.knows run.rule run.offset = false
  unwritten : ∀ run ∈ runs, run.memo.knows run.rule run.offset = false
  kept : memo.Extends r.state.memo
  known : ∀ rule offset, r.state.memo.knows rule offset = true →
    memo.knows rule offset = true ∨ (rule, offset) ∈ runs.map BodyRun.key
  stored : ¬ r.IsAbort → ∀ run ∈ runs, r.state.memo.knows run.rule run.offset = true

namespace Once

variable {memo : Memo} {runs runs' : List BodyRun}

theorem nil {r : Outcome α} (h : r.state.memo = memo) : Once memo [] r where
  distinct := .nil
  fresh := List.forall_mem_nil _
  unwritten := List.forall_mem_nil _
  kept := h ▸ .refl _
  known _ _ hk := .inl (h ▸ hk)
  stored _ := List.forall_mem_nil _

/-- What was stored by some runs is recalled by those behind them. -/
theorem append {r : Outcome β} {r' : Outcome α} (h : Once memo runs r) (hr : ¬ r.IsAbort)
    (h' : Once r.state.memo runs' r') : Once memo (runs ++ runs') r' where
  distinct := by
    rw [List.map_append, List.nodup_append]
    refine ⟨h.distinct, h'.distinct, fun key hk key' hk' => ?_⟩
    obtain ⟨run, hrun, rfl⟩ := List.mem_map.mp hk
    obtain ⟨run', hrun', rfl⟩ := List.mem_map.mp hk'
    intro he
    have hstored := h.stored hr run hrun
    have hfresh := h'.fresh run' hrun'
    obtain ⟨hrule, hoffset⟩ := Prod.mk.inj he
    rw [hrule, hoffset, hfresh] at hstored
    cases hstored
  fresh run hrun := by
    obtain hrun | hrun := List.mem_append.mp hrun
    · exact h.fresh run hrun
    · refine Bool.eq_false_iff.mpr fun hk => ?_
      have hk' := h.kept.knows hk
      rw [h'.fresh run hrun] at hk'
      cases hk'
  unwritten := List.forall_mem_append.mpr ⟨h.unwritten, h'.unwritten⟩
  kept := h.kept.trans h'.kept
  known rule offset hk := by
    rw [List.map_append, List.mem_append]
    obtain hk | hk := h'.known rule offset hk
    · exact (h.known rule offset hk).imp_right .inl
    · exact .inr (.inr hk)
  stored hr' := by
    refine List.forall_mem_append.mpr ⟨fun run hrun => ?_, h'.stored hr'⟩
    exact h'.kept.knows (h.stored hr run hrun)

theorem andThen {r : Outcome β} {f : β → State → Outcome α} {next : β → State → List BodyRun}
    (h : Once memo runs r) (hf : ∀ b t, r = .value b t → Once t.memo (next b t) (f b t)) :
    Once memo (runs ++ r.runsAfterValue next) (r.andThen f) := by
  cases r with
  | value b t => exact h.append id (hf b t rfl)
  | mismatch t =>
    simp only [Outcome.runsAfterValue, List.append_nil]
    exact ⟨h.distinct, h.fresh, h.unwritten, h.kept, h.known, h.stored⟩
  | abort a t =>
    simp only [Outcome.runsAfterValue, List.append_nil]
    exact ⟨h.distinct, h.fresh, h.unwritten, h.kept, h.known, h.stored⟩

theorem orRetry {r : Outcome α} {start : Cursor} {f : State → Outcome α}
    {next : State → List BodyRun} (h : Once memo runs r)
    (hf : ∀ t, r = .mismatch t → Once t.memo (next t) (f (t.moveTo start))) :
    Once memo (runs ++ r.runsAfterMismatch next) (Outcome.orRetry start f r) := by
  cases r with
  | mismatch t => exact h.append id (hf t rfl)
  | value b t =>
    simp only [Outcome.runsAfterMismatch, List.append_nil]
    exact h
  | abort a t =>
    simp only [Outcome.runsAfterMismatch, List.append_nil]
    exact h

theorem mapState {r : Outcome α} {f : State → State} (h : Once memo runs r)
    (hf : ∀ t, (f t).memo = t.memo) : Once memo runs (r.mapState f) := by
  have hmemo := mapState_memo (r := r) hf
  have habort : (r.mapState f).IsAbort ↔ r.IsAbort := by cases r <;> exact Iff.rfl
  exact ⟨h.distinct, h.fresh, h.unwritten, hmemo ▸ h.kept, hmemo ▸ h.known,
    fun hr => hmemo ▸ h.stored (mt habort.mpr hr)⟩

/-- The outcome of a rule is stored when its body has ended, unless the parse is given up. -/
theorem record {rule : Rule} {start : Cursor} {r : Outcome rule.Result} (h : Once memo runs r)
    (hfresh : memo.knows rule start.offset = false)
    (hown : (rule, start.offset) ∉ runs.map BodyRun.key) :
    Once memo (⟨rule, start.offset, r.state.memo⟩ :: runs)
      (recordOutcome true rule start r) := by
  have hunwritten : r.state.memo.knows rule start.offset = false :=
    Bool.eq_false_iff.mpr fun hk => (h.known rule start.offset hk).elim
      (Bool.eq_false_iff.mp hfresh) hown
  have hinsert : r.state.memo.Extends (recordOutcome true rule start r).state.memo :=
    extends_recordOutcome hunwritten
  refine ⟨List.nodup_cons.mpr ⟨hown, h.distinct⟩, List.forall_mem_cons.mpr ⟨hfresh, h.fresh⟩,
    List.forall_mem_cons.mpr ⟨hunwritten, h.unwritten⟩, h.kept.trans hinsert,
    fun rule' offset' hk => ?_, fun hr' => ?_⟩
  · obtain hk | he := knows_recordOutcome hk
    · exact (h.known rule' offset' hk).imp_right (List.mem_cons_of_mem _)
    · exact .inr (he ▸ List.mem_cons_self)
  · have hr := mt isAbort_recordOutcome.mpr hr'
    refine List.forall_mem_cons.mpr ⟨recordOutcome_knows hr, fun run hrun => ?_⟩
    exact hinsert.knows (h.stored hr run hrun)

end Once

section Runs

variable {s : State}

end Runs

/-! ## The memo at every moment -/

/-- The memo only grows, from the one at the beginning of a run through all of its moments to the
one at its end. -/
structure Accrues (memo : Memo) (moments : List State) (memo' : Memo) : Prop where
  kept : memo.Extends memo'
  between : ∀ t ∈ moments, memo.Extends t.memo ∧ t.memo.Extends memo'
  pairwise : moments.Pairwise fun t u => t.memo.Extends u.memo

namespace Accrues

variable {memo memo' memo'' : Memo} {moments moments' : List State}

theorem nil (h : memo.Extends memo') : Accrues memo [] memo' :=
  ⟨h, List.forall_mem_nil _, .nil⟩

/-- One moment, which is the end. -/
theorem last {t : State} (h : memo.Extends t.memo) : Accrues memo [t] t.memo :=
  ⟨h, List.forall_mem_singleton.mpr ⟨h, .refl _⟩, List.pairwise_singleton ..⟩

theorem append (h : Accrues memo moments memo') (h' : Accrues memo' moments' memo'') :
    Accrues memo (moments ++ moments') memo'' where
  kept := h.kept.trans h'.kept
  between := List.forall_mem_append.mpr
    ⟨fun t ht => ⟨(h.between t ht).1, (h.between t ht).2.trans h'.kept⟩,
      fun t ht => ⟨h.kept.trans (h'.between t ht).1, (h'.between t ht).2⟩⟩
  pairwise := List.pairwise_append.mpr ⟨h.pairwise, h'.pairwise,
    fun t ht u hu => (h.between t ht).2.trans (h'.between u hu).1⟩

theorem andThen {r : Outcome β} {f : β → State → Outcome α} {next : β → State → List State}
    (h : Accrues memo moments r.state.memo)
    (hf : ∀ b t, r = .value b t → Accrues t.memo (next b t) (f b t).state.memo) :
    Accrues memo (moments ++ r.afterValue next) (r.andThen f).state.memo := by
  cases r with
  | value b t => exact h.append (hf b t rfl)
  | mismatch t => exact h.append (.nil (.refl _))
  | abort a t => exact h.append (.nil (.refl _))

theorem orRetry {r : Outcome α} {start : Cursor} {f : State → Outcome α}
    {next : State → List State} (h : Accrues memo moments r.state.memo)
    (hf : ∀ t, r = .mismatch t → Accrues t.memo (next t) (f (t.moveTo start)).state.memo) :
    Accrues memo (moments ++ r.afterMismatch next) (Outcome.orRetry start f r).state.memo := by
  cases r with
  | mismatch t => exact h.append (hf t rfl)
  | value b t => exact h.append (.nil (.refl _))
  | abort a t => exact h.append (.nil (.refl _))

end Accrues

section Moments

variable {s : State}

end Moments

/-! ## Whole parses -/

theorem Rule.mem_all (rule : Rule) : rule ∈ Rule.all := by
  cases rule <;> decide

end DhallSyntax
