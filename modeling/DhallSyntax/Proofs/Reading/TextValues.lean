import DhallSyntax.Proofs.Reading.First
import DhallSyntax.Proofs.Reading.Yields

/-!
Where a text literal comes from that is read as an expression. Main statement:
`textFrom_singleQuoteLiteral`, if the text ahead begins with a single quote, the rule for multi-line
literals has read it.
-/

namespace DhallSyntax

open Grammar

variable {s : List Char}

/-- An expression that is no text literal. -/
def NoText (e : Expr) : Prop := ∀ chunks suffix, e ≠ .text chunks suffix

theorem closeFrom_noText (before : List (Expr × Operator)) {last : Expr} (h : NoText last) :
    NoText (Pending.closeFrom Tree.operation 0 before last).last := by
  induction before generalizing last with
  | nil => exact h
  | cons entry before ih =>
    rw [Pending.closeFrom, if_pos (Nat.zero_le _)]
    exact ih nofun

/-- A chain with an operator in it is an operation. -/
theorem push_noText (chain : Pending Expr) (op : Operator) (right : Expr) :
    NoText ((chain.push Tree.operation op right).close Tree.operation) := by
  rw [Pending.push, Pending.close, Pending.closeFrom, if_pos (Nat.zero_le _)]
  exact closeFrom_noText _ nofun

/-- A text literal that one part of a grammar yields is yielded by another at the same place. -/
def TextFrom (s : List Char) (g g' : Grammar Expr) : Prop :=
  ∀ chunks suffix t, g.read s = .value (.text chunks suffix) t →
    ∃ u, g'.read s = .value (.text chunks suffix) u

namespace TextFrom

variable {g g' g'' : Grammar Expr}

theorem refl (g : Grammar Expr) : TextFrom s g g := fun _ _ t h => ⟨t, h⟩

theorem trans (h : TextFrom s g g') (h' : TextFrom s g' g'') : TextFrom s g g'' := by
  intro chunks suffix t ht
  obtain ⟨u, hu⟩ := h chunks suffix t ht
  exact h' chunks suffix u hu

theorem of_mismatch (h : g.read s = .mismatch) : TextFrom s g g' := by
  intro chunks suffix t ht
  cases h.symm.trans ht

theorem of_noText (h : g.Yields Rule.read NoText) : TextFrom s g g' :=
  fun chunks suffix t ht => absurd rfl (h s _ t ht chunks suffix)

theorem choice {alternatives : List (Grammar Expr)}
    (h : ∀ g ∈ alternatives, TextFrom s g g') : TextFrom s (Grammar.choice alternatives) g' := by
  intro chunks suffix t ht
  induction alternatives with
  | nil => cases ht
  | cons g rest ih =>
    obtain ⟨hg, hrest⟩ := List.forall_mem_cons.mp h
    obtain ht | ⟨-, ht⟩ := Reading.orElse_eq_value.mp ht
    · exact hg chunks suffix t ht
    · exact ih hrest ht

theorem of_read_eq (h : g.read s = g''.read s) (hg : TextFrom s g'' g') : TextFrom s g g' :=
  fun chunks suffix t ht => hg chunks suffix t (h.symm.trans ht)

/-- What follows a part keeps its value or makes something else of it than a text literal. -/
theorem bind {next : Expr → Grammar Expr}
    (h : ∀ a, (next a).Yields Rule.read fun e => e = a ∨ NoText e) :
    TextFrom s (g >>= next) g := by
  intro chunks suffix t ht
  obtain ⟨a, u, ha, ht⟩ := Reading.bind_eq_value.mp ht
  obtain rfl | hnone := h a u _ t ht
  · exact ⟨u, ha⟩
  · exact absurd rfl (hnone chunks suffix)

end TextFrom

/-! ## From one level to the next tighter one -/

theorem textFrom_selectorExpression :
    TextFrom s (call .selectorExpression) (call .primitiveExpression) := by
  refine .of_read_eq (Rule.read_eq .selectorExpression s) (.bind fun record => ?_)
  refine .foldMany (.any _) (.inl rfl) fun e selector _ _ => .inr ?_
  cases selector <;> exact nofun

theorem textFrom_importExpression :
    TextFrom s (call .importExpression) (call .selectorExpression) := by
  refine .of_read_eq (Rule.read_eq .importExpression s) (.choice ?_)
  simp only [List.forall_mem_cons, List.not_mem_nil, false_implies, implies_true, and_true]
  exact ⟨.of_noText (.behind fun _ => yields_pure nofun), .refl _⟩

theorem textFrom_firstApplicationExpression :
    TextFrom s (call .firstApplicationExpression) (call .importExpression) := by
  refine .of_read_eq (Rule.read_eq .firstApplicationExpression s) (.choice ?_)
  simp only [List.forall_mem_cons, List.not_mem_nil, false_implies, implies_true, and_true]
  refine ⟨.of_noText ?_, .of_noText ?_, .of_noText ?_, .refl _⟩
  · exact .behind fun _ => .behind fun _ => .behind fun _ => .behind fun _ => .behind fun _ =>
      yields_pure nofun
  · exact .behind fun _ => .behind fun _ => .behind fun _ => yields_pure nofun
  · exact .behind fun _ => .behind fun _ => .behind fun _ => yields_pure nofun

theorem textFrom_applicationExpression :
    TextFrom s (call .applicationExpression) (call .firstApplicationExpression) := by
  refine .of_read_eq (Rule.read_eq .applicationExpression s) (.bind fun function => ?_)
  exact .foldMany (.any _) (.inl rfl) fun _ _ _ _ => .inr nofun

theorem textFrom_operatorExpression :
    TextFrom s (call .operatorExpression) (call .applicationExpression) := by
  refine .of_read_eq (Rule.read_eq .operatorExpression s) (.bind fun first => ?_)
  refine Yields.bind (Yields.foldMany
    (P := fun chain => chain = Pending.start first ∨ NoText (chain.close Tree.operation))
    (.any _) (.inl rfl) fun chain tail _ _ => .inr (push_noText chain tail.1 tail.2)) ?_
  rintro chain (rfl | hchain)
  · exact yields_pure (.inl rfl)
  · exact yields_pure (.inr hchain)

theorem textFrom_annotatedExpression :
    TextFrom s (call .annotatedExpression) (call .operatorExpression) := by
  refine .of_read_eq (Rule.read_eq .annotatedExpression s) (.bind fun subject => ?_)
  refine .behind fun type => ?_
  cases type with
  | some type => exact yields_pure (.inr nofun)
  | none => exact yields_pure (.inl rfl)

/-- No other form than the loosest that an operand can stand alone in yields a text literal there. -/
theorem textFrom_expression (hs : s.head? = some '\'') :
    TextFrom s (call .expression) (call .annotatedExpression) := by
  have hform : ∀ rule : Rule, rule.first '\'' = false → rule.read s = .mismatch :=
    fun rule => rule.read_of_head hs
  refine .of_read_eq (Rule.read_eq .expression s) (.choice ?_)
  simp only [List.forall_mem_cons, List.not_mem_nil, false_implies, implies_true, and_true]
  refine ⟨.of_mismatch (hform .lambdaExpression rfl), .of_mismatch (hform .ifExpression rfl),
    .of_mismatch (hform .letExpression rfl), .of_mismatch (hform .forallExpression rfl),
    .of_read_eq (Rule.read_eq .arrowExpression s) (.of_noText ?_),
    .of_mismatch (hform .mergeExpression rfl), .of_mismatch (hform .emptyListExpression rfl),
    .of_mismatch (hform .toMapExpression rfl), .refl _⟩
  exact .behind fun _ => .behind fun _ => .behind fun _ => yields_pure nofun

theorem textFrom_primitiveExpression (hs : s.head? = some '\'') :
    TextFrom s (call .primitiveExpression) (call .singleQuoteLiteral) := by
  have hrule : ∀ rule : Rule, rule.first '\'' = false → rule.read s = .mismatch :=
    fun rule => rule.read_of_head hs
  have hparenthesis : (expect "(").BeginsWith Rule.read "(".toList.contains :=
    beginsWith_expect "(" (by decide)
  have htext : TextFrom s (call .textLiteral) (call .singleQuoteLiteral) := by
    refine .of_read_eq (Rule.read_eq .textLiteral s) (.choice ?_)
    simp only [List.forall_mem_cons, List.not_mem_nil, false_implies, implies_true, and_true]
    exact ⟨.of_mismatch (hrule .doubleQuoteLiteral rfl), .refl _⟩
  refine .of_read_eq (Rule.read_eq .primitiveExpression s) (.choice ?_)
  simp only [List.forall_mem_cons, List.not_mem_nil, false_implies, implies_true, and_true]
  refine ⟨.of_noText ?_, .of_noText ?_, .of_noText ?_, htext,
    .of_mismatch (hrule .recordExpression rfl), .of_mismatch (hrule .unionType rfl),
    .of_mismatch (hrule .listLiteral rfl), .of_mismatch (hrule .identifier rfl),
    .of_mismatch ?_⟩
  · exact .behind fun _ => yields_pure nofun
  · exact .behind fun _ => yields_pure nofun
  · exact .behind fun _ => yields_pure nofun
  · exact (hparenthesis.bind _) s (by rw [hs]; rfl)

/-- A text literal that is read behind a single quote is read by the rule for multi-line literals. -/
theorem textFrom_singleQuoteLiteral (hs : s.head? = some '\'') :
    TextFrom s (call .expression) (call .singleQuoteLiteral) :=
  (textFrom_expression hs).trans <| textFrom_annotatedExpression.trans <|
    textFrom_operatorExpression.trans <| textFrom_applicationExpression.trans <|
    textFrom_firstApplicationExpression.trans <| textFrom_importExpression.trans <|
    textFrom_selectorExpression.trans (textFrom_primitiveExpression hs)

end DhallSyntax
