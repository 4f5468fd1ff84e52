import DhallSyntax.Proofs.Parser.DepthGuard

/-!
Two bounds on nested expressions. Main statement: `parse_of_le`, whatever a parse does that keeps
within its bound, it does with every greater one.
-/

namespace DhallSyntax

variable {α : Type} {memoize : Bool} {stack m m' : Nat}

/-! ## Runs -/

theorem Shallow.mono {moments : List State} (hs : Shallow m moments) (h : m ≤ m') :
    Shallow m' moments := fun t ht => Nat.le_trans (hs t ht) h

/-- A run that stays within a bound is the run without one, and so the one with a greater bound. -/
theorem start_of_le (h : m ≤ m') (g : Grammar α) (s : State) (hs : s.depth ≤ m)
    (hd : ¬ (g.start ⟨some m, memoize, stack⟩ s).TooDeep) :
    g.start ⟨some m', memoize, stack⟩ s = g.start ⟨some m, memoize, stack⟩ s := by
  let low : Settings := ⟨some m, memoize, stack⟩
  let high : Settings := ⟨some m', memoize, stack⟩
  have hlow : Bounds m _ _ (g.start low s) := start_bounded rfl g s hs
  have hhigh : Bounds m' _ _ (g.start high s) := start_bounded rfl g s (Nat.le_trans hs h)
  obtain ⟨hshallow, hlow⟩ | ⟨-, hdeep⟩ := hlow
  case inr => exact absurd hdeep hd
  obtain ⟨-, hhigh⟩ | ⟨hnot, -⟩ := hhigh
  case inr => exact absurd (hshallow.mono h) hnot
  exact hhigh.trans hlow.symm

theorem runFrom_of_le (h : m ≤ m') {source : List Char} {g : Grammar α}
    (hx : exceeds (runFrom ⟨some m, memoize, stack⟩ source g).result = false) :
    runFrom ⟨some m', memoize, stack⟩ source g = runFrom ⟨some m, memoize, stack⟩ source g := by
  have hd : ¬ (g.start ⟨some m, memoize, stack⟩ (.initial source)).TooDeep := by
    rw [← runFrom_exceeds, hx]
    exact Bool.false_ne_true
  unfold runFrom
  rw [start_of_le h g _ (Nat.zero_le m) hd]

/-! ## Results -/

theorem parse_exceeds_run {settings : Settings} {source : String} :
    exceeds (parse settings source) =
      exceeds (runFrom settings source.toList Grammar.completeExpression).result := by
  rw [Bool.eq_iff_iff, parse_exceeds, runFrom_exceeds]

theorem parsePrefix_exceeds_run {settings : Settings} {source : String} :
    exceeds (parsePrefix settings source) =
      exceeds (runFrom settings source.toList Grammar.leadingExpression).result := by
  unfold parsePrefix parsePrefixWith
  dsimp only
  generalize runFrom settings source.toList Grammar.leadingExpression = p
  cases p.result with
  | ok e => rfl
  | error e => cases e <;> rfl

theorem exceeds_of_nests {r : Except ParseError α} (h : nests r = false) : exceeds r = false := by
  cases r with
  | ok a => rfl
  | error e =>
    cases e with
    | source e => exact h
    | stackExhausted => cases h
    | numberRange => rfl

/-- If a result is the same whenever it is not that a bound was exceeded, then it is a nesting
error only where it already was one. -/
theorem nests_of_eq {r r' : Except ParseError α} (h : exceeds r = false → r' = r)
    (hn : nests r' = true) : nests r = true := by
  cases hr : nests r with
  | true => rfl
  | false =>
    rw [h (exceeds_of_nests hr), hr] at hn
    cases hn

/-- Raising the bound on nested expressions changes no result but that the bound was exceeded: not
the expression, not where it ends, and nothing about an error. So a nesting error with the greater
bound is one with the smaller bound as well. -/
theorem parse_of_le (source : String) (memoize : Bool) (stack : Nat) {m m' : Nat} (h : m ≤ m') :
    (exceeds (parse ⟨some m, memoize, stack⟩ source) = false →
      parse ⟨some m', memoize, stack⟩ source = parse ⟨some m, memoize, stack⟩ source) ∧
    (exceeds (parsePrefix ⟨some m, memoize, stack⟩ source) = false →
      parsePrefix ⟨some m', memoize, stack⟩ source =
        parsePrefix ⟨some m, memoize, stack⟩ source) ∧
    (nests (parse ⟨some m', memoize, stack⟩ source) = true →
      nests (parse ⟨some m, memoize, stack⟩ source) = true) ∧
    (nests (parsePrefix ⟨some m', memoize, stack⟩ source) = true →
      nests (parsePrefix ⟨some m, memoize, stack⟩ source) = true) := by
  have hwhole : exceeds (parse ⟨some m, memoize, stack⟩ source) = false →
      parse ⟨some m', memoize, stack⟩ source = parse ⟨some m, memoize, stack⟩ source := by
    intro hx
    rw [parse_exceeds_run] at hx
    unfold parse parseWith
    rw [runFrom_of_le h hx]
  have hfront : exceeds (parsePrefix ⟨some m, memoize, stack⟩ source) = false →
      parsePrefix ⟨some m', memoize, stack⟩ source =
        parsePrefix ⟨some m, memoize, stack⟩ source := by
    intro hx
    rw [parsePrefix_exceeds_run] at hx
    unfold parsePrefix parsePrefixWith
    rw [runFrom_of_le h hx]
  exact ⟨hwhole, hfront, nests_of_eq hwhole, nests_of_eq hfront⟩

/-- Parentheses that nobody closes, and others that are three levels inside each other. -/
theorem parse_of_le_parentheses :
    parse ⟨some 4, true, 200⟩ "((1" = parse ⟨some 3, true, 200⟩ "((1" ∧
      parsePrefix ⟨some 4, true, 200⟩ "((1)) (" = parsePrefix ⟨some 3, true, 200⟩ "((1)) (" ∧
      nests (parse ⟨some 2, false, 200⟩ "(((1)))") = true ∧
      nests (parsePrefix ⟨some 2, false, 200⟩ "(((1)))") = true := by
  obtain ⟨hwhole, -⟩ := parse_of_le "((1" true 200 (show 3 ≤ 4 by decide)
  obtain ⟨-, hfront, -⟩ := parse_of_le "((1)) (" true 200 (show 3 ≤ 4 by decide)
  obtain ⟨-, -, hnests⟩ := parse_of_le "(((1)))" false 200 (show 2 ≤ 3 by decide)
  exact ⟨hwhole (by decide +kernel), hfront (by decide +kernel), hnests.1 (by decide +kernel),
    hnests.2 (by decide +kernel)⟩

end DhallSyntax
