import DhallSyntax.Proofs.Context.Around

/-!
Sources that are one primitive expression. Main statement: `parse_literal`, a source that begins as
numbers and texts do is parsed to what the rule for primitive expressions makes of the whole of it,
although every other form and every looser level is tried on the way.
-/

namespace DhallSyntax

open Grammar CharClass

variable {α β σ : Type} {S : Surroundings} {levels depth : Nat} {c : Char} {t u : List Char}
  {e : Expr}

theorem Steady.foldMany_last {part : Grammar α} {f : σ → α → σ} {start : σ}
    (h : Steady S levels depth (.term part) t none) :
    Steady S levels depth (.term (foldMany part f start)) t (some (start, t)) :=
  .iterate (.last (.bind (.right (.miss h) (.plain trivial rfl)) (.plain trivial rfl)))

/-- A part that begins with other characters. -/
theorem steady_head {g : Grammar α} {chars : CharClass} {levels' : Nat}
    (h : Grammar.OpensWith chars levels' g) (hc : chars c = false) (hfree : S.free (c :: t))
    (hl : levels' ≤ levels) : Steady S levels depth (.term g) (c :: t) none :=
  (h.steady (t := c :: t) hc hfree depth).mono hl

/-- A part that begins with none of some characters. -/
theorem steady_opening {g : Grammar α} {chars : CharClass} {levels' : Nat} {openings : String}
    (h : Grammar.OpensWith chars levels' g) (hc : openings.toList.contains c = true)
    (hfree : S.free (c :: t)) (hchars : openings.toList.all (fun c => !chars c) = true)
    (hl : levels' ≤ levels) : Steady S levels depth (.term g) (c :: t) none := by
  have hnone : chars c = false := by
    simpa using List.all_eq_true.mp hchars c (List.contains_iff_mem.mp hc)
  exact steady_head h hnone hfree hl

/-- The characters that begin primitive expressions, but no labels and no imports. A bracket begins
an empty list with its type as well. -/
abbrev openings : String := "([\x7b\"'+-0123456789"

/-- Those of them that begin no number. -/
abbrev marks : String := "([\x7b\"'"

theorem steady_primitive {r : Place Expr} (hc : marks.toList.contains c = true)
    (hfree : S.free (c :: t))
    (h : Steady S 2 depth (.term (choice [call .textLiteral, call .recordExpression,
      call .unionType, call .listLiteral, call .identifier, parenthesized])) (c :: t) r) :
    Steady S 3 depth (.term (call .primitiveExpression)) (c :: t) r := by
  refine .call hfree ?_
  apply Steady.right (.miss (steady_opening Rule.opens_doubleLiteral hc hfree (by decide)
    (by decide)))
  apply Steady.right (.miss (steady_opening Rule.opens_naturalLiteral hc hfree (by decide)
    (by decide)))
  exact .right (.miss (steady_opening Rule.opens_integerLiteral hc hfree (by decide)
    (by decide))) h

section Whole

variable (hc : openings.toList.contains c = true) (hfree : S.free (c :: t))

include hc hfree

/-- None of the words that begin applications is there. -/
theorem steady_applicationWord {word : String}
    (hw : word.toList.head?.any "mSt".toList.contains = true) :
    Steady S 5 depth (.term (keyword word)) (c :: t) none :=
  steady_opening (Rule.opens_keyword _ hw) hc hfree (by decide) (Nat.zero_le 5)

/-- Nor is a form of expressions that begins with other characters. -/
theorem steady_form {rule : Rule} {chars : CharClass} {levels' : Nat}
    (h : Grammar.OpensWith chars levels' (call rule))
    (hchars : openings.toList.all (fun c => !chars c) = true) (hl : levels' ≤ 9) :
    Steady S 9 depth (.term (call rule)) (c :: t) none :=
  steady_opening h hc hfree hchars hl

theorem steady_operator
    (h : Steady S 3 depth (.term (call .primitiveExpression)) (c :: t) (some (e, []))) :
    Steady S 8 depth (.term (call .operatorExpression)) (c :: t) (some (e, [])) := by
  have hselector : Steady S 4 depth (.term (call .selectorExpression)) (c :: t) (some (e, [])) := by
    refine .call hfree (.bind h (Steady.foldMany_last ?_))
    exact .bind (.plain (by simp [whitespace]) rfl) (.miss (.plain (by simp) rfl))
  have himport : Steady S 5 depth (.term (call .importExpression)) (c :: t) (some (e, [])) := by
    refine .call hfree (.right (.miss ?_) (.left hselector))
    exact steady_opening Rule.opens_importClause hc hfree (by decide) (by decide)
  have hfirst : Steady S 6 depth (.term (call .firstApplicationExpression)) (c :: t)
      (some (e, [])) := by
    refine .call hfree ?_
    apply Steady.right (.miss (steady_applicationWord hc hfree (by decide)))
    apply Steady.right (.miss (steady_applicationWord hc hfree (by decide)))
    apply Steady.right (.miss (steady_applicationWord hc hfree (by decide)))
    exact .left himport
  have happlication : Steady S 7 depth (.term (call .applicationExpression)) (c :: t)
      (some (e, [])) := by
    refine .call hfree (.bind hfirst (Steady.foldMany_last ?_))
    exact .miss (.plain (by simp [whitespace1, whitespace]) rfl)
  refine .call hfree (.bind happlication (.bind (Steady.foldMany_last ?_) (.plain trivial rfl)))
  refine .miss (.bind (.plain (by simp [whitespace]) rfl) ?_)
  exact .bind (.plain trivial rfl) (.plain trivial rfl)

/-- A text that is one primitive expression is parsed as one. -/
theorem steady_whole (hbound : 1 ≤ S.bound) (htight : Whitespace.Tight (c :: t))
    (hempty : Steady S 9 1 (.term (call .emptyListExpression)) (c :: t) none)
    (h : Steady S 3 1 (.term (call .primitiveExpression)) (c :: t) (some (e, []))) :
    Steady S 10 0 (.term completeExpression) (c :: t) (some (e, [])) := by
  have hoperator := steady_operator hc hfree h
  have harrow : Steady S 9 1 (.term (call .arrowExpression)) (c :: t) none := by
    refine .call hfree (.bind hoperator (.miss ?_))
    exact .bind (.plain (by simp [whitespace]) rfl) (.miss (.plain (by simp) rfl))
  have hannotated : Steady S 9 1 (.term (call .annotatedExpression)) (c :: t) (some (e, [])) := by
    refine .call hfree (.bind hoperator (.bind (.right (.miss (.miss ?_)) (.plain trivial rfl))
      (.plain trivial rfl)))
    exact .bind (.plain (by simp [whitespace]) rfl) (.miss (.plain (by simp) rfl))
  have hexpression : Steady S 10 0 (.term (call .expression)) (c :: t) (some (e, [])) := by
    refine .call hfree (.nested hbound ?_)
    apply Steady.right (steady_form hc hfree Rule.opens_lambdaExpression (by decide) (by decide))
    apply Steady.right (steady_form hc hfree Rule.opens_ifExpression (by decide) (by decide))
    apply Steady.right (steady_form hc hfree Rule.opens_letExpression (by decide) (by decide))
    apply Steady.right (steady_form hc hfree Rule.opens_forallExpression (by decide) (by decide))
    apply Steady.right harrow
    apply Steady.right (steady_form hc hfree Rule.opens_mergeExpression (by decide) (by decide))
    apply Steady.right hempty
    apply Steady.right (steady_form hc hfree Rule.opens_toMapExpression (by decide) (by decide))
    exact .left hannotated
  refine .bind (.plain (by simp [whitespace]) (readBy_whitespace_tight htight)) ?_
  exact .bind hexpression (.bind (.plain (by simp [whitespace]) rfl) (.plain trivial rfl))

end Whole

/-! ## Parsing it -/

/-- Room for one expression and the rules that a literal is inside of. -/
structure Settings.Ample (settings : Settings) : Prop where
  admits : settings.admits 1 = true
  stack : 10 ≤ settings.stack

/-- Whatever bound on nested expressions is asked for, there is room. -/
theorem Settings.ample_of_maxDepth {maxDepth : Int} {memoize : Bool} {settings : Settings}
    (h : Settings.ofMaxDepth? maxDepth memoize = some settings) : settings.Ample := by
  unfold Settings.ofMaxDepth? at h
  split at h
  · cases h
  · rename_i hpositive
    cases h
    exact ⟨decide_eq_true (by omega), (by decide : 10 ≤ Settings.defaultStack)⟩

theorem Settings.ample_standard : Settings.standard.Ample :=
  ⟨by decide, by decide⟩

/-- A single expression is opened, and nothing is known of what is called. -/
def Surroundings.single : Surroundings :=
  { Surroundings.bare with bound := 1 }

variable {settings : Settings}

theorem Surroundings.single_keeps (h : settings.Ample) (source : List Char) :
    Surroundings.single.Keeps settings source fun _ => True where
  admits _ hd := Settings.admits_of_le h.admits hd
  store _ _ _ _ _ _ _ := trivial
  inner _ _ _ _ _ hi _ := hi.elim

/-- The characters that begin numbers and texts, besides the words for doubles. -/
abbrev literalOpenings : String := "\"'+-0123456789"

/-- A source that begins as a number or a text does is parsed to what a steady way through the rule
for primitive expressions makes of it, if that takes the whole source. -/
theorem parse_literal (h : settings.Ample) {s : List Char}
    (hopen : s.head?.any literalOpenings.toList.contains = true) (htight : Whitespace.Tight s)
    (hsteady : Steady .single 3 1 (.term (call .primitiveExpression)) s (some (e, []))) :
    parse settings (String.ofList s) = .ok e := by
  obtain ⟨c, t, rfl, hc⟩ := head?_of_any hopen
  obtain ⟨hprimitive, hbracket⟩ : openings.toList.contains c = true ∧ c ≠ '[' := by
    have hall : literalOpenings.toList.all
        (fun c => openings.toList.contains c && c != '[') = true := by decide
    simpa using List.all_eq_true.mp hall c (List.contains_iff_mem.mp hc)
  have hempty : Steady .single 9 1 (.term (call .emptyListExpression)) (c :: t) none :=
    steady_head Rule.opens_emptyListExpression (by simpa [Rule.first] using hbracket) trivial
      (by decide)
  have hwhole : Steady .single 10 0 (.term completeExpression) (String.ofList (c :: t)).toList
      (some (e, [])) := by
    rw [String.toList_ofList]
    exact steady_whole hprimitive trivial (Nat.le_refl 1) htight hempty hsteady
  exact parse_of_steady (Surroundings.single_keeps h _) trivial hwhole h.stack

end DhallSyntax
