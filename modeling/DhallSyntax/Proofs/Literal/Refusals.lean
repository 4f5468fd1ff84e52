import DhallSyntax.Proofs.Context.Halting
import DhallSyntax.Proofs.Literal.DoubleQuoted
import DhallSyntax.Proofs.Parser.Errors

/-!
Unicode escapes that are refused. Main statement: `parse_refused_iff`, behind any items of a
double-quoted text an escape is refused at its backslash if and only if no scalar value is written
there, and then the parse is over at once.
-/

namespace DhallSyntax

open Grammar CharClass

variable {α β σ : Type} {settings : Settings} {S : Surroundings} {levels depth : Nat} {c : Char}
  {r t u : List Char} {h : Halt}

/-! ## From the whole source to a literal -/

theorem Rounds.halts {step : σ → Grammar (σ ⊕ α)} {state state' : σ}
    (hrounds : Rounds S levels depth step state t state' u)
    (hrest : Halts S levels depth (.loop step state') u h) :
    Halts S levels depth (.loop step state) t h := by
  induction hrounds with
  | refl => exact hrest
  | next hstep hlt _ ih => exact .again hstep hlt (ih hrest)

/-- The rules that a primitive expression is inside of when it is tried for the first time. -/
abbrev primitiveRules : List Rule :=
  [.expression, .arrowExpression, .operatorExpression, .applicationExpression,
    .firstApplicationExpression, .importExpression, .selectorExpression]

/-- What ends the parse in a primitive expression is met at the first try. -/
theorem halts_whole {fault : Fault} {left : Nat} {opened : List Rule}
    (hc : openings.toList.contains c = true) (hfree : S.free (c :: t)) (hbound : 1 ≤ S.bound)
    (htight : Whitespace.Tight (c :: t))
    (h : Halts S 3 1 (.term (call .primitiveExpression)) (c :: t) ⟨fault, left, opened⟩) :
    Halts S 10 0 (.term completeExpression) (c :: t) ⟨fault, left, primitiveRules ++ opened⟩ := by
  have himport : Halts S 5 1 (.term (call .importExpression)) (c :: t)
      ⟨fault, left, primitiveRules.drop 5 ++ opened⟩ := by
    refine .call (.right (.miss ?_) (.left (.call (.first h))))
    exact steady_opening Rule.opens_importClause hc hfree (by decide) (by decide)
  have hfirst : Halts S 6 1 (.term (call .firstApplicationExpression)) (c :: t)
      ⟨fault, left, primitiveRules.drop 4 ++ opened⟩ := by
    refine .call ?_
    apply Halts.right (.miss (steady_applicationWord hc hfree (by decide)))
    apply Halts.right (.miss (steady_applicationWord hc hfree (by decide)))
    apply Halts.right (.miss (steady_applicationWord hc hfree (by decide)))
    exact .left himport
  have harrow : Halts S 9 1 (.term (call .arrowExpression)) (c :: t)
      ⟨fault, left, primitiveRules.drop 1 ++ opened⟩ :=
    .call (.first (.call (.first (.call (.first hfirst)))))
  refine .next (.plain (by simp [whitespace]) (readBy_whitespace_tight htight)) (.first ?_)
  refine .call (.nested hbound ?_)
  apply Halts.right (steady_form hc hfree Rule.opens_lambdaExpression (by decide) (by decide))
  apply Halts.right (steady_form hc hfree Rule.opens_ifExpression (by decide) (by decide))
  apply Halts.right (steady_form hc hfree Rule.opens_letExpression (by decide) (by decide))
  apply Halts.right (steady_form hc hfree Rule.opens_forallExpression (by decide) (by decide))
  exact .left harrow

/-- The parse ends as it is said, and its states unwind from there. -/
theorem parse_of_halts {source : String} {K : Memo → Prop}
    (hK : S.Keeps settings source.toList K) (hempty : K ∅)
    (hp : Halts S levels 0 (.term completeExpression) source.toList h)
    (hn : levels + S.stack ≤ settings.stack) :
    parse settings source = .error (.ofAbort source.toList
      ⟨h.fault, source.toList.length - h.left, h.opened⟩) ∧
    ∃ place, Unwinds h.opened.reverse place
      (completeExpression.history settings (.initial source.toList)) := by
  obtain ⟨hresult, hunwinds⟩ := runFrom_of_halts hK hempty hp hn
  refine ⟨?_, hunwinds⟩
  simp only [parse, parseWith, hresult]

/-! ## One escape -/

theorem Halts.abort_at {fault : Fault} {back left : Nat} (hleft : t.length + back = left) :
    Halts S levels depth (.term (.abort fault back : Grammar α)) t ⟨fault, left, []⟩ :=
  hleft ▸ .abort

/-- A part of a grammar ends the parse because of an escape that begins where so many characters of
the text are left. -/
def RefusesEscape (S : Surroundings) (levels depth : Nat) (g : Grammar α) (t : List Char)
    (left : Nat) : Prop :=
  ∃ d : Defect, d.kind = .escape ∧ Halts S levels depth (.term g) t ⟨.defect d, left, []⟩

namespace RefusesEscape

variable {left : Nat}

theorem next {first : Grammar β} {next : β → Grammar α} {b : β}
    (hfirst : Steady S levels depth (.term first) t (some (b, u)))
    (hnext : RefusesEscape S levels depth (next b) u left) :
    RefusesEscape S levels depth (.bind first next) t left := by
  obtain ⟨d, hd, hhalts⟩ := hnext
  exact ⟨d, hd, .next hfirst hhalts⟩

theorem abort {d : Defect} {back : Nat} (hd : d.kind = .escape) (hleft : t.length + back = left) :
    RefusesEscape S levels depth (.abort (.defect d) back : Grammar α) t left :=
  ⟨d, hd, .abort_at hleft⟩

/-- What is no scalar value is refused. -/
theorem scalar {code length : Nat} (hnot : ¬ code.isValidChar) (hleft : t.length + length = left) :
    RefusesEscape S levels depth (Grammar.scalar code length) t left := by
  rw [Grammar.scalar, if_pos (notScalar_iff.mpr hnot)]
  exact .abort rfl hleft

/-- Where no scalar value is written in braces, the escape is refused at its backslash. -/
theorem unicodeEscape_brace (hnot : ¬ UnicodeEscape.Begins ('{' :: r)) :
    RefusesEscape S levels depth unicodeEscape ('{' :: r) (r.length + 3) := by
  rw [UnicodeEscape.begins_brace] at hnot
  have hlength : (r.takeWhile hexDigit).length + (r.dropWhile hexDigit).length = r.length := by
    rw [← List.length_append, List.takeWhile_append_dropWhile]
  have hrun : Steady S levels depth (.term (takeWhile hexDigit)) r
      (some (r.takeWhile hexDigit, r.dropWhile hexDigit)) :=
    .plain doesOnly_takeWhile (readBy_takeWhile ..)
  refine .next (b := true) (.plain trivial rfl) (.next hrun ?_)
  by_cases hempty : r.takeWhile hexDigit = []
  · rw [if_pos (List.isEmpty_iff.mpr hempty)]
    rw [hempty, List.length_nil] at hlength
    exact .abort rfl (by omega)
  rw [if_neg fun he => hempty (List.isEmpty_iff.mp he)]
  by_cases hclosed : ['}'] <+: r.dropWhile hexDigit
  · obtain ⟨rest, hrest⟩ := hclosed
    have hrestLength : rest.length + 1 = (r.dropWhile hexDigit).length :=
      congrArg List.length hrest
    refine .next (b := true) (u := rest) (.plain trivial (hrest ▸ rfl)) ?_
    rw [if_pos rfl]
    by_cases hshort : ((r.takeWhile hexDigit).dropWhile (· == '0')).length ≤ 6
    · rw [if_neg (Nat.not_lt.mpr hshort)]
      exact .scalar (fun hvalid => hnot ⟨hempty, ⟨rest, hrest⟩, hshort, hvalid⟩) (by omega)
    · rw [if_pos (Nat.not_le.mp hshort)]
      exact .abort rfl (by omega)
  · refine .next (.plain trivial (readBy_accept_of_not hclosed)) ?_
    rw [if_neg Bool.false_ne_true]
    exact .abort rfl (by omega)

/-- So is it where none is written in four digits. -/
theorem unicodeEscape_four (hbrace : r.head? ≠ some '{') (hnot : ¬ UnicodeEscape.Begins r) :
    RefusesEscape S levels depth unicodeEscape r (r.length + 2) := by
  rw [UnicodeEscape.begins_four hbrace] at hnot
  have hopen : ¬ ['{'] <+: r := by
    rintro ⟨rest, rfl⟩
    exact hbrace rfl
  refine .next (.plain trivial (readBy_accept_of_not hopen)) (.next (.plain trivial rfl) ?_)
  by_cases hfour : (r.take 4).length = 4 ∧ ∀ d ∈ r.take 4, hexDigit d = true
  · rw [if_pos (by rw [hfour.1, List.all_eq_true.mpr hfour.2]; rfl)]
    refine .next (u := r.drop 4) (.plain trivial rfl) ?_
    have hlength := List.length_take (i := 4) (l := r)
    refine .scalar (fun hvalid => hnot ⟨hfour.1, hfour.2, hvalid⟩) ?_
    rw [List.length_drop]
    omega
  · rw [if_neg fun hyes => hfour (by simpa only [Bool.and_eq_true, beq_iff_eq,
      List.all_eq_true] using hyes)]
    exact .abort rfl rfl

theorem unicodeEscape (hnot : ¬ UnicodeEscape.Begins r) :
    RefusesEscape S levels depth Grammar.unicodeEscape r (r.length + 2) := by
  by_cases hbrace : r.head? = some '{'
  · obtain ⟨rest, rfl⟩ := List.head?_eq_some_iff.mp hbrace
    exact unicodeEscape_brace hnot
  · exact unicodeEscape_four hbrace hnot

/-- The step through the text that meets the escape. -/
theorem doubleQuoteStep (hnot : ¬ UnicodeEscape.Begins r) (draft : TextDraft) :
    RefusesEscape S levels depth (Grammar.doubleQuoteStep draft) ('\\' :: 'u' :: r)
      (r.length + 2) := by
  obtain ⟨d, hd, hhalts⟩ : RefusesEscape S levels depth Grammar.unicodeEscape r (r.length + 2) :=
    unicodeEscape hnot
  refine ⟨d, hd, .next (b := false) (.plain trivial rfl) (.next (b := false) (.plain trivial rfl)
    (.next (b := true) (.plain trivial rfl) (.first ?_)))⟩
  exact .next (b := some 'u') (.plain trivial rfl) (.next (b := ()) (.plain trivial rfl) hhalts)

end RefusesEscape

/-! ## Whole sources -/

/-- An escape error stands at a backslash with a `u` behind it and no scalar value behind that. -/
theorem not_begins_of_escape {source : String} {e : SyntaxError}
    (he : parse settings source = .error (.source e)) (hkind : e.kind = .escape) :
    ∃ rest, source.toList.drop e.location.offset = '\\' :: 'u' :: rest ∧
      ¬ UnicodeEscape.Begins rest := by
  obtain hr | ⟨value, t, -, htrailing⟩ := runFrom_of_parse he
  · unfold runFrom at hr
    cases hstart : completeExpression.start settings (.initial source.toList) with
    | value a t => rw [hstart] at hr; cases hr
    | mismatch t =>
      rw [hstart] at hr
      cases hr
      cases hkind
    | abort a t =>
      rw [hstart] at hr
      obtain ⟨fault, offset, rules⟩ := a
      cases fault with
      | defect d =>
        cases hr
        obtain ⟨-, hshown⟩ := start_reports honest_completeExpression rfl hstart
        unfold Defect.ShownAt at hshown
        simp only [show d.kind = .escape from hkind] at hshown
        exact hshown
      | stackExhausted => cases hr
      | numberRange => cases hr
  · obtain ⟨e', he', htrails, -⟩ := ofTrailing_eq source.toList t.cursor.offset t.furthest
    obtain rfl : e = e' := ParseError.source.inj (htrailing.trans he')
    cases hkind.symm.trans htrails

/-- The rules that a double-quoted text is inside of when it is tried for the first time, its own
included. -/
abbrev textRules : List Rule :=
  primitiveRules ++ [.primitiveExpression, .textLiteral, .doubleQuoteLiteral]

/-- A source that is items and an escape that is refused. -/
theorem halts_refused {items : List TextItem} (hapart : TextItem.Apart items)
    (hnot : ¬ UnicodeEscape.Begins r) :
    ∃ d : Defect, d.kind = .escape ∧ Halts .single 10 0 (.term completeExpression)
      ('"' :: (items.flatMap TextItem.chars ++ '\\' :: 'u' :: r))
      ⟨.defect d, r.length + 2, textRules⟩ := by
  obtain ⟨d, hd, hstep⟩ : RefusesEscape .single 0 1
      (doubleQuoteStep (TextDraft.empty.add (items.map TextItem.char))) ('\\' :: 'u' :: r)
      (r.length + 2) := RefusesEscape.doubleQuoteStep hnot _
  have hloop := (TextItem.rounds hapart .empty (by simp)).halts (.step hstep)
  have hliteral : Halts .single 1 1 (.term (call .doubleQuoteLiteral))
      ('"' :: (items.flatMap TextItem.chars ++ '\\' :: 'u' :: r))
      ⟨.defect d, r.length + 2, [.doubleQuoteLiteral]⟩ :=
    .call (.next (b := ()) (.plain (by simp) rfl) (.iterate hloop))
  refine ⟨d, hd, halts_whole (by decide) trivial (Nat.le_refl 1) rfl (.call ?_)⟩
  apply Halts.right (.miss (steady_head Rule.opens_doubleLiteral rfl trivial (by decide)))
  apply Halts.right (.miss (steady_head Rule.opens_naturalLiteral rfl trivial (by decide)))
  apply Halts.right (.miss (steady_head Rule.opens_integerLiteral rfl trivial (by decide)))
  exact .left (.call (.left hliteral))

/-- Behind any items of a double-quoted text an escape is refused at its backslash exactly where no
scalar value is written in four digits or in braces, whatever else follows. Then the parse is inside
the first rules that it opened for the text, and it only leaves them: nothing else is tried. -/
theorem parse_refused_iff (settings : Settings) (h : settings.Ample) (items : List TextItem)
    (hapart : TextItem.Apart items) (r : List Char) :
    let front := '"' :: items.flatMap TextItem.chars
    let source := String.ofList (front ++ '\\' :: 'u' :: r)
    ((∃ e, parse settings source = .error (.source e) ∧ e.kind = .escape ∧
        e.location = .of source.toList front.length) ↔ ¬ UnicodeEscape.Begins r) ∧
    (¬ UnicodeEscape.Begins r →
      (∃ e, parse settings source = .error (.source e) ∧ e.kind = .escape ∧
        e.location = .of source.toList front.length ∧ e.rules = textRules) ∧
      ∃ place, Unwinds textRules.reverse place
        (completeExpression.history settings (.initial source.toList))) := by
  intro front source
  have hsource : source.toList = front ++ '\\' :: 'u' :: r := String.toList_ofList
  have hrefused : ¬ UnicodeEscape.Begins r →
      (∃ e, parse settings source = .error (.source e) ∧ e.kind = .escape ∧
        e.location = .of source.toList front.length ∧ e.rules = textRules) ∧
      ∃ place, Unwinds textRules.reverse place
        (completeExpression.history settings (.initial source.toList)) := by
    intro hnot
    obtain ⟨d, hd, hhalts⟩ := halts_refused hapart hnot
    have hhalts : Halts .single 10 0 (.term completeExpression) source.toList
        ⟨.defect d, r.length + 2, textRules⟩ := by
      rw [hsource]
      exact hhalts
    obtain ⟨hparse, hunwinds⟩ :=
      parse_of_halts (Surroundings.single_keeps h _) trivial hhalts h.stack
    have hplace : source.toList.length - (r.length + 2) = front.length := by
      rw [hsource, List.length_append]
      exact Nat.add_sub_cancel _ _
    refine ⟨⟨_, hparse, hd, ?_, rfl⟩, hunwinds⟩
    exact congrArg (Location.of source.toList) hplace
  refine ⟨⟨?_, fun hnot => ?_⟩, hrefused⟩
  · rintro ⟨e, hparse, hkind, hlocation⟩
    obtain ⟨rest, hrest, hnot⟩ := not_begins_of_escape hparse hkind
    have hdrop : source.toList.drop e.location.offset = '\\' :: 'u' :: r := by
      rw [hlocation, hsource]
      exact List.drop_left
    rw [hdrop] at hrest
    simp only [List.cons.injEq, true_and] at hrest
    exact hrest ▸ hnot
  · obtain ⟨⟨e, hparse, hkind, hlocation, -⟩, -⟩ := hrefused hnot
    exact ⟨e, hparse, hkind, hlocation⟩

/-- A surrogate, with a second faulty escape behind it. -/
theorem parse_refused_surrogate :
    let items : List TextItem := [.raw 'a' (by decide), .letter 'n' '\n' (by decide)]
    let source := "\"a\\n\\u\x7b0D800\x7d\\u"
    Settings.standard.Ample ∧ TextItem.Apart items ∧
      ¬ UnicodeEscape.Begins "\x7b0D800\x7d\\u".toList ∧
      (∃ e, parse .standard source = .error (.source e) ∧ e.kind = .escape ∧
        e.location = .of source.toList 4 ∧ e.rules = textRules) ∧
      ∃ place, Unwinds textRules.reverse place
        (completeExpression.history .standard (.initial source.toList)) := by
  intro items source
  have hapart : TextItem.Apart items := by simp [TextItem.Apart, TextItem.chars, items]
  have hnot : ¬ UnicodeEscape.Begins "\x7b0D800\x7d\\u".toList := by
    rw [show "\x7b0D800\x7d\\u".toList = '{' :: "0D800\x7d\\u".toList from rfl,
      UnicodeEscape.begins_brace]
    decide
  exact ⟨Settings.ample_standard, hapart, hnot,
    (parse_refused_iff .standard Settings.ample_standard items hapart _).2 hnot⟩

end DhallSyntax
