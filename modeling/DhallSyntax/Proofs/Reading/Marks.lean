import DhallSyntax.Proofs.Reading.Words

/-!
Marks that are no operands although an operand may begin with the same character: a slash that
begins no path and a sign that begins no number.
-/

namespace DhallSyntax

open CharClass Grammar

/-- A slash with something behind it that no path component begins with. -/
def BareSlash (s : List Char) : Prop := ∃ d t, s = '/' :: d :: t ∧ path d = false ∧ d ≠ '"'

/-- A sign with something behind it that no number begins with. -/
def BareSign (s : List Char) : Prop :=
  ∃ c t, s = c :: t ∧ (c = '+' ∨ c = '-') ∧ t.head?.any (fun d => digit d || d == 'I') = false

namespace Grammar

variable {rules : RuleReader} {s : List Char}

theorem readBy_pathComponent_slash (h : BareSlash s) :
    pathComponent.readBy rules s = .mismatch := by
  obtain ⟨d, t, rfl, hd, hq⟩ := h
  have hslash : (expect "/").readBy rules ('/' :: d :: t) = .value () (d :: t) := rfl
  have hquote : (accept "\"").readBy rules (d :: t) = .value false (d :: t) := by
    have hne : (d :: t).head?.any (· == '"') = false := beq_false_of_ne hq
    exact readBy_accept_of_head "\"" rfl hne
  have hrun : (takeWhile1 path "a path character").readBy rules (d :: t) = .mismatch :=
    beginsWith_takeWhile1 path _ _ hd
  simp only [pathComponent, readBy_bind, hslash, hquote, Reading.bind_value, Bool.false_eq_true,
    if_false, hrun, Reading.bind_mismatch]

theorem readBy_localImport_slash (h : BareSlash s) : localImport.readBy rules s = .mismatch := by
  have hcomponent : pathComponent.readBy rules s = .mismatch := readBy_pathComponent_slash h
  obtain ⟨d, t, rfl, -, -⟩ := h
  have hanchor : anchor.readBy rules ('/' :: d :: t) = .value .absolute ('/' :: d :: t) := rfl
  simp only [localImport, readBy_bind, hanchor, Reading.bind_value, hcomponent,
    Reading.bind_mismatch]

theorem readBy_digits_of_head (h : s.head?.any (fun d => digit d || d == 'I') = false) :
    digits.readBy rules s = .mismatch :=
  beginsWith_takeWhile1 digit _ s (head?_any_of_or h).1

theorem readBy_doubleLiteral_sign (h : BareSign s) :
    doubleLiteral.readBy rules s = .mismatch := by
  obtain ⟨c, t, rfl, hc, ht⟩ := h
  have hfind : (specialDoubles.find? fun entry => entry.1.toList.isPrefixOf (c :: t)) = none := by
    have hword : "Infinity".toList.isPrefixOf t = false := isPrefixOf_of_head (by rfl) ht
    have hminus : "-Infinity".toList = '-' :: "Infinity".toList := by decide
    have hother : "Infinity".toList.isPrefixOf (c :: t) = false ∧
        "NaN".toList.isPrefixOf (c :: t) = false := by
      obtain rfl | rfl := hc <;> exact ⟨rfl, rfl⟩
    have hnegative : "-Infinity".toList.isPrefixOf (c :: t) = false := by
      rw [hminus, List.isPrefixOf, hword, Bool.and_false]
    simp only [specialDoubles, List.find?_cons, List.find?_nil, hnegative, hother]
  have hsign : sign.readBy rules (c :: t) = .value (c == '-') t := by
    obtain rfl | rfl := hc <;> rfl
  simp only [doubleLiteral, readBy_bind, readBy_look, Reading.bind_value, hfind, hsign,
    readBy_digits_of_head ht, Reading.bind_mismatch]

theorem readBy_integerLiteral_sign (h : BareSign s) :
    integerLiteral.readBy rules s = .mismatch := by
  obtain ⟨c, t, rfl, hc, ht⟩ := h
  have hsign : ∃ sign, (expectAny ["+", "-"]).readBy rules (c :: t) = .value sign t := by
    obtain rfl | rfl := hc
    · exact ⟨"+", rfl⟩
    · exact ⟨"-", rfl⟩
  obtain ⟨sign, hsign⟩ := hsign
  simp only [integerLiteral, readBy_bind, hsign, Reading.bind_value, readBy_digits_of_head ht,
    Reading.bind_mismatch]

end Grammar

namespace Rule

/-- A slash that begins no path is no operand. -/
theorem refuses_importExpression_slash : Refuses BareSlash 5 (call importExpression) := by
  have hhead : ∀ {chars : CharClass}, chars '/' = false →
      ∀ s, BareSlash s → s.head?.any chars = false := by
    rintro chars hc s ⟨d, t, rfl, -⟩
    exact hc
  have htype : Refuses BareSlash 2 (call importType) := by
    have hmissing : OpensWith "m".toList.contains 1 (keyword "missing") := opens_keyword _ (by decide)
    refine .call (Refuses.choice ?_)
    simp only [List.forall_mem_cons]
    exact ⟨.bind (hmissing.mono (hhead (by decide)) (Nat.le_refl _)),
      .call (.plain (by simp [body, Grammar.localImport, anchor, Grammar.pathComponent])
        fun s hs => readBy_localImport_slash hs),
      opens_httpImport.mono (hhead (by decide)) (by decide),
      opens_envImport.mono (hhead (by decide)) (by decide), List.forall_mem_nil _⟩
  refine .call (Refuses.choice ?_)
  simp only [List.forall_mem_cons]
  exact ⟨.bind (.call (.bind (.call (.bind htype)))),
    opens_selectorExpression.mono (hhead (by decide)) (by decide), List.forall_mem_nil _⟩

/-- A sign that begins no number is no operand. -/
theorem refuses_importExpression_sign : Refuses BareSign 5 (call importExpression) := by
  have hhead : ∀ {chars : CharClass}, chars '+' = false ∧ chars '-' = false →
      ∀ s, BareSign s → s.head?.any chars = false := by
    rintro chars ⟨hp, hm⟩ s ⟨c, t, rfl, rfl | rfl, -⟩
    · exact hp
    · exact hm
  have hprimitive : Refuses BareSign 3 (call primitiveExpression) := by
    have hparenthesis : OpensWith "(".toList.contains 2 (expect "(") := opens_expect _ (by decide)
    refine .call (Refuses.choice ?_)
    simp only [List.forall_mem_cons]
    exact ⟨.bind (.call (.plain (doesOnly_doubleLiteral ⟨_, rfl⟩)
        fun s hs => readBy_doubleLiteral_sign hs)),
      .bind (opens_naturalLiteral.mono (hhead (by decide)) (by decide)),
      .bind (.call (.plain (by simp [body, Grammar.integerLiteral, digits])
        fun s hs => readBy_integerLiteral_sign hs)),
      opens_textLiteral.mono (hhead (by decide)) (by decide),
      opens_recordExpression.mono (hhead (by decide)) (by decide),
      opens_unionType.mono (hhead (by decide)) (by decide),
      opens_listLiteral.mono (hhead (by decide)) (by decide),
      opens_identifier.mono (hhead (by decide)) (by decide),
      .bind (hparenthesis.mono (hhead (by decide)) (Nat.le_refl _)), List.forall_mem_nil _⟩
  refine .call (Refuses.choice ?_)
  simp only [List.forall_mem_cons]
  exact ⟨.bind (opens_importClause.mono (hhead (by decide)) (by decide)),
    .call (.bind hprimitive), List.forall_mem_nil _⟩

end Rule

end DhallSyntax
