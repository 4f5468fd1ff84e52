import DhallSyntax.Proofs.Seam.Rules

/-!
The second end of a text as the end of an expression. Behind its whitespace there is nothing, or
something that goes on with no expression. Main statements:

* `Seam.EdgeApplication.ends`, `Seam.EdgeExpression.ends`: where an application or an expression ends
  at the second end, it ends in front of the seam;
* `Seam.same_expression`: an expression up to the seam is then read with either end.
-/

namespace DhallSyntax

open CharClass Grammar

variable {α β : Type}

namespace Seam

variable {T : Seam} {n levels : Nat} {u x : List Char}

/-! ## Looking at the second end -/

theorem Quiet.bind {first : Grammar β} (h : T.Quiet first) (next : β → Grammar α) :
    T.Quiet (first >>= next) :=
  fun depth => .miss (h depth)

/-- What is refused at the second end is only looked for there. -/
theorem quiet_of_refuses {g : Grammar α} (h : Refuses (· = T.now []) T.levels g) : T.Quiet g :=
  fun depth => h.steady rfl trivial depth

theorem steady_whitespace {S : Surroundings} {depth : Nat} {s : List Char}
    (h : whitespace.read s = .value () u) :
    Steady S levels depth (.term whitespace) s (some ((), u)) :=
  .plain (by simp [whitespace]) h

/-- What is behind the whitespace at the second end, if it goes on with no operand. -/
structure EdgeOperand (T : Seam) (u : List Char) : Prop where
  space : whitespace.read (T.now []) = .value () u
  head : u.head?.any ".@usa".toList.contains = false

/-- The same for an application. -/
structure EdgeApplication (T : Seam) (u : List Char) : Prop extends T.EdgeOperand u where
  argument : Whitespace.starts (T.now []) = true →
    Refuses (· = u) T.levels (call .importExpression)

/-- The same for an expression. -/
structure EdgeExpression (T : Seam) (u : List Char) : Prop extends T.EdgeApplication u where
  operator : ∀ p ∈ Operator.spellings, p.text.toList.isPrefixOf u = false
  further : u.head?.any ":→-".toList.contains = false

namespace EdgeOperand

variable (h : T.EdgeOperand u)

include h

theorem quiet_whitespace {g : Unit → Grammar α} (hg : Refuses (· = u) T.levels (g ())) :
    T.Quiet (whitespace >>= g) :=
  fun depth => .bind (steady_whitespace h.space) (hg.steady rfl trivial depth)

theorem quiet_whitespace1 {g : Unit → Grammar α}
    (hg : Whitespace.starts (T.now []) = true → Refuses (· = u) T.levels (g ())) :
    T.Quiet (whitespace1 >>= g) := by
  have hone : whitespace1.read (T.now []) =
      if Whitespace.starts (T.now []) then .value () u else .mismatch := by
    simp only [whitespace1, Grammar.read, readBy_bind, readBy_look, Reading.bind_value, readBy_ite,
      readBy_fail]
    exact ite_congr rfl (fun _ => h.space) fun _ => rfl
  have hfree : whitespace1.CallFree := by simp [whitespace1, whitespace]
  intro depth
  cases hs : Whitespace.starts (T.now []) with
  | true =>
    rw [hs, if_pos rfl] at hone
    exact .bind (.plain hfree hone) ((hg hs).steady rfl trivial depth)
  | false =>
    rw [hs, if_neg Bool.false_ne_true] at hone
    exact .miss (.plain hfree hone)

theorem head_false (text : List Char) (ht : text.all ".@usa".toList.contains = true) :
    u.head?.any text.contains = false := by
  cases hu : u with
  | nil => rfl
  | cons c t =>
    have hhead := h.head
    rw [hu] at hhead
    refine Bool.eq_false_iff.mpr fun hc => ?_
    have hm := List.all_eq_true.mp ht c (List.contains_iff_mem.mp hc)
    exact Bool.false_ne_true (hhead.symm.trans hm)

theorem refuses_expect (literal : String) (text : List Char)
    (hl : literal.toList.head?.any text.contains = true)
    (ht : text.all ".@usa".toList.contains = true) : Refuses (· = u) T.levels (expect literal) :=
  (Rule.opens_expect literal hl).mono (fun _ hs => hs ▸ h.head_false text ht) (Nat.le_refl _)

theorem refuses_keyword (word : String) (text : List Char)
    (hl : word.toList.head?.any text.contains = true)
    (ht : text.all ".@usa".toList.contains = true) : Refuses (· = u) T.levels (keyword word) :=
  (Rule.opens_keyword word hl).mono (fun _ hs => hs ▸ h.head_false text ht) (Nat.le_refl _)

omit h in
/-- The second end begins with whitespace, if with anything. -/
theorem quiet_pathComponent : T.Quiet pathComponent := by
  have hopens : Grammar.OpensWith (· == '/') T.levels pathComponent :=
    .bind (Rule.opens_expect "/" (by decide))
  refine quiet_of_refuses (hopens.mono ?_ (Nat.le_refl _))
  rintro s rfl
  cases hnow : T.now [] with
  | nil => rfl
  | cons c v =>
    refine beq_false_of_ne ?_
    rintro rfl
    exact absurd (now_nil_head hnow) (by decide)

theorem ends : T.EndsOperand [] where
  selector := (h.quiet_whitespace (.bind (h.refuses_expect "." ['.'] (by decide) (by decide)))).ready
  index := (h.quiet_whitespace (.bind (h.refuses_expect "@" ['@'] (by decide) (by decide)))).ready
  headers :=
    (h.quiet_whitespace (.bind (h.refuses_keyword "using" ['u'] (by decide) (by decide)))).ready
  component := quiet_pathComponent.ready
  hash := by
    refine Quiet.ready (h.quiet_whitespace1 fun _ => .plain (by simp [integrityHash]) ?_)
    rintro s rfl
    refine readBy_integrityHash_of_word (isPrefixOf_of_head ?_ (h.head_false ['s'] (by decide)))
    decide
  mode := (h.quiet_whitespace (.bind (h.refuses_keyword "as" ['a'] (by decide) (by decide)))).ready
  colon := fun _ hv => nomatch hv
  quote := fun _ hv => nomatch hv

end EdgeOperand

theorem EdgeApplication.ends (h : T.EdgeApplication u) : T.EndsApplication [] where
  toEndsOperand := h.toEdgeOperand.ends
  argument := (h.quiet_whitespace1 h.argument).ready

theorem EdgeExpression.ends (h : T.EdgeExpression u) : T.EndsExpression [] where
  toEndsApplication := h.toEdgeApplication.ends
  tail := by
    have hfind : (Operator.spellings.find? fun p => p.text.toList.isPrefixOf u) = none :=
      List.find?_eq_none.mpr fun p hp => Bool.eq_false_iff.mp (h.operator p hp)
    have hoperator : T.Quiet binaryOperator := by
      refine h.quiet_whitespace (Refuses.pass none ?_ ?_ ?_)
      · exact trivial
      · rintro s rfl
        rw [readBy_look, hfind]
      · exact .plain trivial fun _ _ => rfl
    exact (hoperator.bind _).ready
  annotation next := by
    refine Quiet.ready (Quiet.bind (h.quiet_whitespace (.bind ?_)) _)
    have hopens : Grammar.OpensWith ":→-".toList.contains T.levels (expect ":") :=
      Rule.opens_expect ":" (by decide)
    refine hopens.mono ?_ (Nat.le_refl _)
    rintro s rfl
    exact h.further
  codomain next := by
    refine Quiet.ready (Quiet.bind (h.quiet_whitespace (.bind ?_)) _)
    have hopens :
        Grammar.OpensWith ":→-".toList.contains T.levels (expectAny Vocabulary.arrowSpellings) :=
      Rule.opens_expectAny (by decide)
    refine hopens.mono ?_ (Nat.le_refl _)
    rintro s rfl
    exact h.further

/-- The end of a text, or what closes an expression. -/
theorem edgeExpression (hspace : whitespace.read (T.now []) = .value () u)
    (hu : u.head?.any (fun c => !([')', ']', '}', '>', ','].contains c)) = false)
    (hl : Whitespace.starts (T.now []) = true → 5 ≤ T.levels) : T.EdgeExpression u := by
  have hhead : ∀ {chars : CharClass}, [')', ']', '}', '>', ','].all (fun c => !chars c) = true →
      u.head?.any chars = false := by
    intro chars hall
    cases hc : u with
    | nil => rfl
    | cons c t =>
      rw [hc] at hu
      have hu : (!([')', ']', '}', '>', ','].contains c)) = false := hu
      rw [Bool.not_eq_false', List.contains_iff_mem] at hu
      simpa using List.all_eq_true.mp hall c hu
  have hopens : Grammar.OpensWith operandStart 5 (call .importExpression) := Rule.opens_importExpression
  exact {
    space := hspace
    head := hhead (by decide)
    argument := fun hs => hopens.mono (fun _ ht => ht ▸ hhead (by decide)) (hl hs)
    operator := by
      have hall : ∀ p ∈ Operator.spellings, p.text.toList.head?.any operatorStart = true := by decide
      exact fun p hp => isPrefixOf_of_head (hall p hp) (hhead (by decide))
    further := hhead (by decide) }

/-- A bar that is not the beginning of an operator. -/
theorem edgeExpression_bar (hspace : whitespace.read (T.now []) = .value () ('|' :: u))
    (hu : u.head? ≠ some '|') (hl : Whitespace.starts (T.now []) = true → 5 ≤ T.levels) :
    T.EdgeExpression ('|' :: u) where
  space := hspace
  head := rfl
  argument hs := by
    have hopens : Grammar.OpensWith operandStart 5 (call .importExpression) :=
      Rule.opens_importExpression
    refine hopens.mono ?_ (hl hs)
    rintro s rfl
    rfl
  operator := by
    have hall : ∀ p ∈ Operator.spellings, p.text.toList.head? = some '|' →
        p.text.toList = ['|', '|'] := by decide
    have hne : ∀ p ∈ Operator.spellings, p.text.toList ≠ [] := by decide
    intro p hp
    obtain ⟨c, t, ht⟩ := List.exists_cons_of_ne_nil (hne p hp)
    by_cases hc : c = '|'
    · have htext := hall p hp (by rw [ht, hc]; rfl)
      cases u with
      | nil => rw [htext]; rfl
      | cons d u =>
        have hd : ('|' == d) = false := beq_false_of_ne fun he => hu (congrArg some he.symm)
        simp only [htext, List.isPrefixOf, hd, Bool.false_and, Bool.and_false]
    · rw [ht, List.isPrefixOf, beq_false_of_ne hc, Bool.false_and]
  further := rfl

/-- An expression up to the seam is read with either end. -/
theorem same_expression (h : T.EdgeExpression u) {e : Expr}
    (hl : T.Lands n leadingExpression x e []) : T.Reads leadingExpression x e [] := by
  have hleading : T.Carries n (fun _ => T.EndsExpression) leadingExpression :=
    Carries.spaced (leads_token_call .expression (by decide)) (carries_rule n .expression)
  exact hleading x e [] hl h.ends

end Seam

end DhallSyntax
