import DhallSyntax.Proofs.Parser.EntryPoints
import DhallSyntax.Proofs.Seam.Edge

/-!
A parser in which the faults of a text backtrack. The real parser ends at a malformed escape, a
malformed hash or a comment that is never closed, before the alternatives behind it are tried; no
source is lost by that. Main statements:

* `run_falls`: a run ends with a fault that backtracks in the other one, or the two are the same;
* `parse_of_parseSoftly`: what is parsed with backtracking is parsed without it.
-/

namespace DhallSyntax

variable {α β σ : Type} {settings : Settings} {soft : Fault → Bool}

/-- The bodies of the rules with some faults that backtrack. -/
def Rule.softBody (soft : Fault → Bool) (rule : Rule) : Grammar rule.Result :=
  rule.body.soften soft

/-- Parses a whole source as `parse` does, by the same grammar with some faults that backtrack like
any other mismatch. -/
def parseSoftly (soft : Fault → Bool) (settings : Settings) (source : String) :
    Except ParseError Expr :=
  let chars := source.toList
  match (Grammar.completeExpression.soften soft).run settings
    (callWithin (Rule.softBody soft) settings settings.stack) (.initial chars) with
  | .value e s =>
    if s.cursor.rest.isEmpty then .ok e
    else .error (.ofTrailing chars s.cursor.offset s.furthest)
  | .mismatch s => .error (.ofFurthest chars s.furthest)
  | .abort a _ => .error (.ofAbort chars a)

/-- With no such fault it is the parser itself. -/
theorem parseSoftly_none (settings : Settings) (source : String) :
    parseSoftly (fun _ => false) settings source = parse settings source := by
  have hbody : Rule.softBody (fun _ => false) = Rule.body :=
    funext fun rule => Grammar.soften_none rule.body
  unfold parseSoftly parse parseWith runFrom
  rw [hbody, Grammar.soften_none, Grammar.start]
  dsimp only
  cases Grammar.completeExpression.run settings (callWithin Rule.body settings settings.stack)
    (.initial source.toList) with
  | value e s =>
    dsimp only
    split <;> rfl
  | mismatch s => rfl
  | abort a s => rfl

/-! ## The two runs -/

/-- An outcome that ends the parse with one of some faults, or is the same as another. -/
inductive Outcome.Falls (soft : Fault → Bool) : Outcome α → Outcome α → Prop where
  | abort (a : Abort) (s : State) (r : Outcome α) : soft a.fault = true → Falls soft (.abort a s) r
  | refl (r : Outcome α) : Falls soft r r

namespace Outcome.Falls

theorem andThen {r q : Outcome β} {f f' : β → State → Outcome α} (h : r.Falls soft q)
    (hf : ∀ b t, (f b t).Falls soft (f' b t)) : (r.andThen f).Falls soft (q.andThen f') := by
  cases h with
  | abort a s q ha => exact .abort a s _ ha
  | refl r =>
    cases r with
    | value b t => exact hf b t
    | mismatch t => exact .refl _
    | abort a t => exact .refl _

theorem orRetry {r q : Outcome α} {start : Cursor} {f f' : State → Outcome α} (h : r.Falls soft q)
    (hf : ∀ t, (f t).Falls soft (f' t)) :
    (Outcome.orRetry start f r).Falls soft (Outcome.orRetry start f' q) := by
  cases h with
  | abort a s q ha => exact .abort a s _ ha
  | refl r =>
    cases r with
    | mismatch t => exact hf _
    | value b t => exact .refl _
    | abort a t => exact .refl _

theorem mapState {r q : Outcome α} (h : r.Falls soft q) (f : State → State) :
    (r.mapState f).Falls soft (q.mapState f) := by
  cases h with
  | abort a s q ha => exact .abort a _ _ ha
  | refl r => exact .refl _

theorem record {rule : Rule} {r q : Outcome rule.Result} (h : r.Falls soft q) (memoize : Bool)
    (start : Cursor) :
    (recordOutcome memoize rule start r).Falls soft (recordOutcome memoize rule start q) := by
  cases h with
  | abort a s q ha => exact .abort a s _ ha
  | refl r => exact .refl _

end Outcome.Falls

theorem iterateWithin_falls {run run' : σ → State → Outcome (σ ⊕ α)}
    (h : ∀ state s, (run state s).Falls soft (run' state s)) (bound : List Char) (state : σ)
    (s : State) : (iterateWithin run bound state s).Falls soft (iterateWithin run' bound state s) := by
  induction bound generalizing state s with
  | nil =>
    rw [iterateWithin_step, iterateWithin_step]
    exact (h state s).andThen fun x t => .refl _
  | cons _ bound ih =>
    rw [iterateWithin_step, iterateWithin_step]
    refine (h state s).andThen fun x t => ?_
    cases x with
    | inl next => exact ih next t
    | inr a => exact .refl _

/-- The parts of a run fall behind one by one. -/
theorem run_falls {caller caller' : Caller}
    (h : ∀ rule s, (caller rule s).Falls soft (caller' rule s)) (g : Grammar α) (s : State) :
    (g.run settings caller s).Falls soft ((g.soften soft).run settings caller' s) := by
  induction g generalizing s with
  | bind first next ihf ihn =>
    rw [Grammar.soften, run_bind, run_bind]
    exact (ihf s).andThen ihn
  | orElse first second ihf ihs =>
    rw [Grammar.soften, Grammar.run, Grammar.run]
    exact (ihf s).orRetry ihs
  | call rule => exact h rule s
  | nested body ih =>
    rw [Grammar.soften, Grammar.run, Grammar.run, nestedWithin, nestedWithin]
    split
    · exact (ih _).mapState _
    · exact .refl _
  | iterate state step ih => exact iterateWithin_falls ih _ state s
  | abort fault back =>
    rw [Grammar.soften]
    split
    · rename_i hf
      exact .abort _ _ _ hf
    · exact .refl _
  | _ => exact .refl _

theorem callWithin_falls (n : Nat) (rule : Rule) (s : State) :
    (callWithin Rule.body settings n rule s).Falls soft
      (callWithin (Rule.softBody soft) settings n rule s) := by
  induction n generalizing rule s with
  | zero => exact .refl _
  | succ n ih =>
    have hrun : ∀ s, (runRule settings rule
        (rule.body.run settings (callWithin Rule.body settings n)) s).Falls soft
        (runRule settings rule ((Rule.softBody soft rule).run settings
          (callWithin (Rule.softBody soft) settings n)) s) := fun s =>
      ((run_falls ih rule.body (s.enter rule)).mapState _).record _ _
    rw [callWithin, callWithin]
    cases hr : settings.recalls rule s with
    | true =>
      rw [recallRule_known hr rfl]
      exact .refl _
    | false =>
      rw [recallRule_fresh hr, recallRule_fresh hr]
      exact hrun s

/-! ## What is read with backtracking -/

/-- What the other parser makes of a source is what it reads. -/
theorem softly_of_run {g : Grammar α} {source : List Char} {a : α} {t : State}
    (h : (g.soften soft).run settings (callWithin (Rule.softBody soft) settings settings.stack)
      (.initial source) = .value a t) : ∃ n, g.softly soft n source = .value a t.cursor.rest := by
  have hs : (State.initial source).Sound (Rule.softBody soft) source := .initial _ source
  obtain ⟨-, ⟨-, _, _, _, hr, -⟩ | ⟨⟨_, _, hr, -⟩, -⟩ | ⟨k, -, -, hr⟩⟩ :=
    run_accounted (callWithin_accounted settings.stack) (g.soften soft) _ hs
  · rw [h] at hr
    cases hr
  · rw [h] at hr
    cases hr
  · rw [h] at hr
    have hrules : ∀ rule c, c.isBeyond = false → (readWithin (Rule.softBody soft) k rule c).EndsAs
        (Rule.softUpTo soft k rule c.rest) :=
      readWithin_endsAs_of (fun _ _ => rfl) (fun _ _ _ => rfl) k
    have hends := account_endsAs hrules (g.soften soft) (.start source) rfl
    have hreading : _ = Reading.value a t.cursor.rest := Account.endsAs_of_alike hr
    exact ⟨k, hends.reading.symm.trans hreading⟩

/-- A text that is nothing but whitespace begins with it. -/
theorem Whitespace.starts_of_read {s : List Char} (h : Grammar.whitespace.read s = .value () []) :
    s = [] ∨ Whitespace.starts s = true := by
  cases hc : Whitespace.starts s with
  | true => exact .inr rfl
  | false =>
    have htight : Whitespace.Tight s := by simpa [Whitespace.starts] using hc
    exact .inl (Reading.value.inj ((Grammar.readBy_whitespace_tight htight).symm.trans h)).2

/-- An expression that is the whole text if defects backtrack is read as a whole. -/
theorem Grammar.read_of_softly {n : Nat} {source : List Char} {e : Expr}
    (h : completeExpression.softly Fault.isDefect n source = .value e []) :
    completeExpression.read source = .value e [] := by
  obtain ⟨_, u, hspace, h⟩ := Reading.bind_eq_value.mp h
  obtain ⟨e', v, he, h⟩ := Reading.bind_eq_value.mp h
  obtain ⟨_, w, hblank, h⟩ := Reading.bind_eq_value.mp h
  obtain ⟨rfl, rfl⟩ := Reading.value.inj (show Reading.value e' w = .value e [] from h)
  have hleading : leadingExpression.softly Fault.isDefect n source = .value e' v :=
    Reading.bind_eq_value.mpr ⟨(), u, hspace, he⟩
  obtain ⟨x, rfl⟩ := readBy_leaves (Rule.softUpTo_leaves n) _ _ e' v hleading
  have hblank : whitespace.read v = .value () [] := by
    let whole : Seam := ⟨[], [], [], 0, .inl rfl, .inl rfl⟩
    have hlands : whole.Lands n whitespace v () [] := by
      simpa [Seam.Lands, Seam.was, whole] using hblank
    simpa [Seam.was, whole] using Seam.lands_whitespace hlands
  -- What follows the expression is whitespace, and it follows with either end of the text.
  let T : Seam := ⟨v, [], [], 5, .inl rfl, by simpa using Whitespace.starts_of_read hblank⟩
  have hwas : ∀ y, T.was y = y ++ v := fun y => congrArg (y ++ ·) (List.append_nil v)
  have hnow : ∀ y, T.now y = y ++ v := fun y => congrArg (y ++ ·) (List.append_nil v)
  have hedge : T.EdgeExpression [] :=
    Seam.edgeExpression (by rw [hnow]; exact hblank) rfl fun _ => Nat.le_refl 5
  have hlands : T.Lands n leadingExpression x e' [] := by
    rw [Seam.Lands, hwas, hwas]
    exact hleading
  have hread := (Seam.same_expression hedge hlands).read_now
  rw [hnow, Seam.nowReading, hnow] at hread
  rw [List.nil_append] at hread
  obtain ⟨_, u', hspace', he'⟩ := Reading.bind_eq_value.mp hread
  exact Reading.bind_eq_value.mpr ⟨(), u', hspace', Reading.bind_eq_value.mpr
    ⟨e', v, he', Reading.bind_eq_value.mpr ⟨(), [], hblank, rfl⟩⟩⟩

/-- What is parsed when the defects of the text backtrack is parsed when they end the parse. -/
theorem parse_of_parseSoftly (settings : Settings) (source : String) (e : Expr)
    (h : parseSoftly Fault.isDefect settings source = .ok e) : parse settings source = .ok e := by
  obtain ⟨t, hsoft, hend⟩ : ∃ t : State,
      (Grammar.completeExpression.soften Fault.isDefect).run settings
        (callWithin (Rule.softBody Fault.isDefect) settings settings.stack)
        (.initial source.toList) = .value e t ∧ t.cursor.rest = [] := by
    unfold parseSoftly at h
    dsimp only at h
    split at h
    · rename_i e' t ht
      split at h
      · rename_i hnil
        cases h
        exact ⟨t, ht, List.isEmpty_iff.mp hnil⟩
      · cases h
    · cases h
    · cases h
  obtain ⟨n, hsoftly⟩ := softly_of_run hsoft
  rw [hend] at hsoftly
  have hread := Grammar.read_of_softly hsoftly
  have hfalls : (Grammar.completeExpression.run settings
      (callWithin Rule.body settings settings.stack) (.initial source.toList)).Falls
        Fault.isDefect (.value e t) :=
    hsoft ▸ run_falls (callWithin_falls settings.stack) Grammar.completeExpression _
  have hrun : Grammar.completeExpression.start settings (.initial source.toList) = .value e t := by
    rw [Grammar.start]
    generalize hr : Grammar.completeExpression.run settings
      (callWithin Rule.body settings settings.stack) (.initial source.toList) = r at hfalls
    cases hfalls with
    | refl => rfl
    | abort a s q ha =>
      -- The fault would be what the source reads as, but it reads as an expression.
      obtain ⟨limit, b, u, hb, hfault⟩ | ⟨b, u, hb, hfault⟩ | hends :=
        start_endsAs settings Grammar.completeExpression source.toList
      · rw [Grammar.start, hr] at hb
        cases hb
        rw [hfault] at ha
        cases ha
      · rw [Grammar.start, hr] at hb
        cases hb
        rw [hfault] at ha
        cases ha
      · rw [Grammar.start, hr, hread] at hends
        cases hends
  simp only [parse, parseWith, runFrom, hrun, hend, List.isEmpty_nil, if_true]

/-- A variable with the name of a hash, with a type behind it, as the argument of an import. -/
theorem parse_of_parseSoftly_annotation :
    parseSoftly Fault.isDefect ⟨some 4, true, 200⟩ "./a sha256: x" =
        .ok (.annotated (.app (.embedded (.mk (.path .here ["a"]) none .code))
          (.variable "sha256" 0)) (.variable "x" 0)) ∧
      parse ⟨some 4, true, 200⟩ "./a sha256: x" =
        .ok (.annotated (.app (.embedded (.mk (.path .here ["a"]) none .code))
          (.variable "sha256" 0)) (.variable "x" 0)) := by
  have h := eq_ok_of_toOption (r := parseSoftly Fault.isDefect ⟨some 4, true, 200⟩ "./a sha256: x")
    (a := .annotated (.app (.embedded (.mk (.path .here ["a"]) none .code))
      (.variable "sha256" 0)) (.variable "x" 0)) (by decide +kernel)
  exact ⟨h, parse_of_parseSoftly _ _ _ h⟩

end DhallSyntax
