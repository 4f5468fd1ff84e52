import DhallSyntax.Proofs.Parser.Faults
import DhallSyntax.Proofs.Parser.Packrat

/-!
When a parse ends because of its bound on nested expressions. Main statement: `parse_exceeds_iff`,
it does exactly where the same parse without a bound opens too many expressions. An expression that
is recalled is not opened again, so that a parse with a memo may keep within a bound that one
without a memo exceeds.
-/

namespace DhallSyntax

variable {α : Type}

/-- Whether a result is that expressions are too deep inside each other. -/
def exceeds : Except ParseError α → Bool
  | .error (.source e) => e.kind == .nesting
  | _ => false

theorem tooDeep_iff_kind {d : Defect} : d.kind = .nesting ↔ ∃ limit, d = .tooDeep limit := by
  cases d <;> simp [Defect.kind]

theorem runFrom_exceeds {settings : Settings} {source : List Char} {g : Grammar α} :
    exceeds (runFrom settings source g).result = true ↔
      (g.start settings (.initial source)).TooDeep := by
  unfold runFrom
  cases hr : g.start settings (.initial source) with
  | value a s => simp [exceeds, Outcome.TooDeep]
  | mismatch s => simp [exceeds, Outcome.TooDeep, ParseError.ofFurthest]
  | abort a s =>
    simp only [ParseError.ofAbort, Outcome.TooDeep]
    cases ha : a.fault with
    | defect d =>
      simp only [exceeds, beq_iff_eq, tooDeep_iff_kind]
      constructor
      · rintro ⟨limit, rfl⟩
        exact ⟨limit, a, s, rfl, ha⟩
      · rintro ⟨limit, b, t, hb, hf⟩
        cases hb
        rw [ha] at hf
        exact ⟨limit, by cases hf; rfl⟩
    | _ =>
      simp only [exceeds, Bool.false_eq_true, false_iff, not_exists, not_and]
      intro limit b t hb hf
      cases hb
      rw [ha] at hf
      cases hf

theorem parse_exceeds {settings : Settings} {source : String} :
    exceeds (parse settings source) = true ↔
      (Grammar.completeExpression.start settings (.initial source.toList)).TooDeep := by
  rw [← runFrom_exceeds]
  unfold parse parseWith
  dsimp only
  generalize runFrom settings source.toList Grammar.completeExpression = p
  cases p.result with
  | error e => rfl
  | ok e =>
    dsimp only
    split
    · rfl
    · simp only [ParseError.ofTrailing]
      split
      · rfl
      · split
        · rfl
        · split <;> rfl

/-- A run without a bound is never too deep. -/
theorem start_unlimited {settings : Settings} (hd : settings.maxDepth = none) (g : Grammar α)
    (hg : g.AbortsOnly fun fault => fault.isTextual = true) (s : State) :
    ¬ (g.start settings s).TooDeep := by
  rintro ⟨limit, a, t, hr, ha⟩
  obtain h | h | ⟨m, hm, -⟩ := start_faults g hg s a t hr
  · rw [ha] at h
    cases h
  · rw [ha] at h
    cases h
  · rw [hd] at hm
    cases hm

/-- A bounded run is too deep exactly if the unlimited one goes beyond the bound. -/
theorem start_tooDeep_iff {settings : Settings} {m : Nat} (hm : settings.maxDepth = some m)
    (g : Grammar α) (hg : g.AbortsOnly fun fault => fault.isTextual = true) (source : List Char) :
    (g.start settings (.initial source)).TooDeep ↔
      ¬ Shallow m (g.history settings.unlimited (.initial source)) := by
  obtain ⟨hs, hr⟩ | ⟨hs, hr⟩ := start_bounded hm g (.initial source) (Nat.zero_le m)
  · rw [hr]
    exact ⟨fun h => absurd h (start_unlimited rfl g hg _), fun h => absurd hs h⟩
  · exact ⟨fun _ => hs, fun _ => hr⟩

theorem not_shallow_iff {m : Nat} {ms : List State} :
    ¬ Shallow m ms ↔ ∃ t ∈ ms, m < t.depth := by
  simp [Shallow]

theorem exceeds_eq_of_agree {r r' : Except ParseError α} (h : Agree r r') :
    exceeds r = exceeds r' := by
  cases h with
  | ok a => rfl
  | @error e e' h =>
    cases e <;> cases e' <;> simp_all [ParseError.Same, exceeds]

theorem nests_of_exceeds {r : Except ParseError α} (h : exceeds r = false)
    (hx : r ≠ .error .stackExhausted) : nests r = false := by
  cases r with
  | ok a => rfl
  | error e =>
    cases e with
    | source e => exact h
    | stackExhausted => exact absurd rfl hx
    | numberRange => rfl

/-- A parse with a memo that exceeds the bound also does so without one, if there is enough stack
for that. -/
theorem parse_exceeds_of_memo {source : String} {m stack : Nat}
    (hx : parse ⟨some m, false, stack⟩ source ≠ .error .stackExhausted)
    (h : exceeds (parse ⟨some m, true, stack⟩ source) = true) :
    exceeds (parse ⟨some m, false, stack⟩ source) = true := by
  cases he : exceeds (parse ⟨some m, false, stack⟩ source) with
  | true => rfl
  | false =>
    rw [← exceeds_eq_of_agree (parse_memo_agree (nests_of_exceeds he hx)), he] at h
    exact h

/-- The states that a parse without a bound passes through. -/
def unboundedHistory (memoize : Bool) (stack : Nat) (source : String) : List State :=
  Grammar.completeExpression.history ⟨none, memoize, stack⟩ (.initial source.toList)

theorem parse_exceeds_unbounded {source : String} {m stack : Nat} {memoize : Bool} :
    exceeds (parse ⟨some m, memoize, stack⟩ source) = true ↔
      ∃ t ∈ unboundedHistory memoize stack source, m < t.depth := by
  have hg : Grammar.completeExpression.AbortsOnly fun fault => fault.isTextual = true :=
    Grammar.defectsOnly_completeExpression.mono fun _ => Fault.isTextual_of_isDefect
  rw [parse_exceeds, start_tooDeep_iff rfl _ hg, not_shallow_iff]
  rfl

/-- With and without a memo a parse is too deep exactly where it opens more expressions than the
bound admits. So the two differ in that exactly where only the one without a memo ever does. -/
theorem parse_exceeds_iff (source : String) (m stack : Nat) :
    (∀ memoize, exceeds (parse ⟨some m, memoize, stack⟩ source) = true ↔
      ∃ t ∈ unboundedHistory memoize stack source, m < t.depth) ∧
    (parse ⟨some m, false, stack⟩ source ≠ .error .stackExhausted →
      (exceeds (parse ⟨some m, true, stack⟩ source) = true →
        exceeds (parse ⟨some m, false, stack⟩ source) = true) ∧
      (exceeds (parse ⟨some m, true, stack⟩ source) ≠
          exceeds (parse ⟨some m, false, stack⟩ source) ↔
        (∃ t ∈ unboundedHistory false stack source, m < t.depth) ∧
          ∀ t ∈ unboundedHistory true stack source, t.depth ≤ m)) := by
  refine ⟨fun _ => parse_exceeds_unbounded, fun hx => ⟨parse_exceeds_of_memo hx, ?_⟩⟩
  have hmemo := parse_exceeds_of_memo hx
  have hall : (∀ t ∈ unboundedHistory true stack source, t.depth ≤ m) ↔
      exceeds (parse ⟨some m, true, stack⟩ source) = false := by
    rw [← Bool.not_eq_true, parse_exceeds_unbounded]
    simp
  rw [← parse_exceeds_unbounded, hall]
  cases hm : exceeds (parse ⟨some m, true, stack⟩ source) with
  | true => simp [hmemo hm]
  | false => simp

/-- The annotation is first read as an application, and then as an expression, one level deeper.
By then the memo has it that the bracket begins no list with entries. -/
theorem parse_exceeds_iff_toMap :
    exceeds (parse ⟨some 2, true, 200⟩ "toMap x : [] : List T") = false ∧
      exceeds (parse ⟨some 2, false, 200⟩ "toMap x : [] : List T") = true ∧
      (∃ t ∈ unboundedHistory false 200 "toMap x : [] : List T", 2 < t.depth) ∧
      ∀ t ∈ unboundedHistory true 200 "toMap x : [] : List T", t.depth ≤ 2 := by
  have ht : exceeds (parse ⟨some 2, true, 200⟩ "toMap x : [] : List T") = false := by
    decide +kernel
  have hf : exceeds (parse ⟨some 2, false, 200⟩ "toMap x : [] : List T") = true := by
    decide +kernel
  obtain ⟨-, hs⟩ := parse_exceeds_iff "toMap x : [] : List T" 2 200
  have hne : parse ⟨some 2, false, 200⟩ "toMap x : [] : List T" ≠ .error .stackExhausted := by
    intro he
    rw [he] at hf
    cases hf
  have hdiffer := (hs hne).2.mp (by rw [ht, hf]; exact Bool.false_ne_true)
  exact ⟨ht, hf, hdiffer⟩

end DhallSyntax
