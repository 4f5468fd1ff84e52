import DhallSyntax.Proofs.Reading.First

/-!
Words at the beginning of a text. A keyword is read where it is the whole word, and a word that is
a keyword is neither a name nor, apart from `missing` and the words for doubles, an operand.
-/

namespace DhallSyntax

open CharClass

/-- The longest run of characters at the beginning of a text that may make up a label. -/
def wordOf (s : List Char) : List Char := s.takeWhile labelContinue

/-- What follows the first word. -/
def behindWord (s : List Char) : List Char := s.dropWhile labelContinue

theorem wordOf_append {word rest : List Char} (hw : word.all labelContinue = true)
    (hr : rest.head?.any labelContinue = false) :
    wordOf (word ++ rest) = word ∧ behindWord (word ++ rest) = rest :=
  Grammar.takeWhile_append_stop (List.all_eq_true.mp hw) hr

theorem wordOf_behindWord (s : List Char) : wordOf s ++ behindWord s = s :=
  List.takeWhile_append_dropWhile

theorem head_behindWord (s : List Char) : (behindWord s).head?.any labelContinue = false := by
  cases h : behindWord s with
  | nil => rfl
  | cons c rest =>
    have hc := List.head?_dropWhile_not labelContinue s
    rw [show s.dropWhile labelContinue = c :: rest from h] at hc
    simpa using hc

/-- What a text begins with that is made of the characters of labels begins its first word. -/
theorem isPrefixOf_wordOf {literal s : List Char} (hl : literal.all labelContinue = true)
    (h : literal.isPrefixOf s = true) : literal.isPrefixOf (wordOf s) = true := by
  obtain ⟨rest, rfl⟩ := List.isPrefixOf_iff_prefix.mp h
  rw [wordOf, List.takeWhile_append_of_pos (List.all_eq_true.mp hl)]
  exact List.isPrefixOf_iff_prefix.mpr (List.prefix_append _ _)

namespace Grammar

variable {rules : RuleReader}

/-- A keyword is read where it is the whole word. -/
theorem readBy_keyword_word (word : String) (hw : word.toList.all labelContinue = true)
    (s : List Char) :
    (keyword word).readBy rules s =
      if wordOf s = word.toList then .value () (behindWord s) else .mismatch := by
  rw [readBy_keyword]
  by_cases h : wordOf s = word.toList
  · have hs := wordOf_behindWord s
    have hhead := head_behindWord s
    rw [h] at hs
    have hdrop : s.drop word.toList.length = behindWord s := by
      rw [← hs, List.drop_left]
      exact (congrArg behindWord hs).symm
    have hprefix : word.toList.isPrefixOf s = true :=
      List.isPrefixOf_iff_prefix.mpr ⟨behindWord s, hs⟩
    rw [if_pos h, hdrop, hprefix, hhead, Bool.not_false, Bool.and_true, if_pos rfl]
  · rw [if_neg h, if_neg]
    intro hc
    simp only [Bool.and_eq_true, Bool.not_eq_true'] at hc
    obtain ⟨rest, rfl⟩ := List.isPrefixOf_iff_prefix.mp hc.1
    rw [List.drop_left] at hc
    exact h (wordOf_append hw hc.2).1

/-- What begins with something else than the first word does is not there. -/
theorem isPrefixOf_of_word {literal s : List Char} (hl : literal.all labelContinue = true)
    (h : literal.isPrefixOf (wordOf s) = false) : literal.isPrefixOf s = false := by
  cases hp : literal.isPrefixOf s with
  | false => rfl
  | true => exact absurd (isPrefixOf_wordOf hl hp) (by rw [h]; exact Bool.false_ne_true)

end Grammar

open Grammar

/-! ## Words that are no operands -/

/-- The alternatives of primitive expressions in their order. -/
theorem read_primitiveExpression (s : List Char) :
    Rule.primitiveExpression.read s =
      ((Rule.doubleLiteral.read s).bind fun d t => .value (.double d) t).orElse
      (((Rule.naturalLiteral.read s).bind fun n t => .value (.natural n) t).orElse
      (((Rule.integerLiteral.read s).bind fun n t => .value (.integer n) t).orElse
      ((Rule.textLiteral.read s).orElse ((Rule.recordExpression.read s).orElse
      ((Rule.unionType.read s).orElse ((Rule.listLiteral.read s).orElse
      ((Rule.identifier.read s).orElse
      ((parenthesized.read s).orElse .mismatch)))))))) :=
  Rule.read_eq _ s

theorem head?_sign_of_labelStart {s : List Char} (h : s.head?.any labelStart = true) :
    s.head?.any signOrDigit = false := by
  refine head?_any_disjoint (fun c hc => ?_) h
  rw [labelStart_iff] at hc
  rw [← Bool.not_eq_true, signOrDigit_iff]
  omega

/-- A word is no double, apart from those for doubles. -/
theorem read_doubleLiteral_word {s : List Char} (h : s.head?.any labelStart = true)
    (hne : wordOf s ∉ ["Infinity".toList, "NaN".toList]) :
    Rule.doubleLiteral.read s = .mismatch := by
  have hsign := head?_sign_of_labelStart h
  have hdigits : digits.readBy Rule.read s = .mismatch := by
    have hsub : ∀ c, digit c = true → signOrDigit c = true := by
      intro c hc
      simp only [signOrDigit, hc, Bool.true_or]
    exact (beginsWith_takeWhile1 digit _).mono hsub s hsign
  rw [Rule.read_eq]
  simp only [Rule.body, doubleLiteral, readBy_bind, readBy_look, Reading.bind_value]
  cases hf : specialDoubles.find? fun entry => entry.1.toList.isPrefixOf s with
  | none =>
    simp only [readBy_bind, readBy_sign_of_head hsign, Reading.bind_value, hdigits,
      Reading.bind_mismatch]
  | some entry =>
    have hwords : ∀ entry ∈ specialDoubles, entry.1.toList.all labelContinue = true ∧
        (entry.1.toList.head?.any labelStart = true →
          entry.1.toList ∈ ["Infinity".toList, "NaN".toList]) := by decide
    obtain ⟨hw, hk⟩ := hwords entry (List.mem_of_find?_eq_some hf)
    have hword : wordOf s ≠ entry.1.toList := by
      intro he
      obtain ⟨c, t, rfl, hc⟩ := head?_of_any h
      have hcontinue : labelContinue c = true := by
        rw [labelStart_iff] at hc
        rw [labelContinue_iff]
        omega
      rw [wordOf, List.takeWhile_cons_of_pos hcontinue] at he hne
      exact hne (he ▸ hk (he ▸ hc))
    simp only [readBy_bind, readBy_keyword_word entry.1 hw, if_neg hword, Reading.bind_mismatch]

/-- Of primitive expressions only an identifier begins with a word, apart from those for
doubles. -/
theorem read_primitiveExpression_word {s : List Char} (h : s.head?.any labelStart = true)
    (hne : wordOf s ∉ ["Infinity".toList, "NaN".toList]) :
    Rule.primitiveExpression.read s = Rule.identifier.read s := by
  have hmisses : ∀ {text : List Char}, text.all (fun c => !labelStart c) = true →
      s.head?.any text.contains = false := fun ht =>
    head?_any_disjoint (not_contains ht) h
  have hdigit : s.head?.any digit = false := by
    refine head?_any_disjoint (fun c hc => ?_) h
    rw [labelStart_iff] at hc
    rw [← Bool.not_eq_true, digit_iff]
    omega
  have hparenthesized : parenthesized.read s = .mismatch :=
    (beginsWith_expect "(" (by decide)).bind _ s (hmisses (by decide : ['('].all _ = true))
  rw [read_primitiveExpression, read_doubleLiteral_word h hne,
    Rule.read_of_first .naturalLiteral hdigit,
    Rule.read_of_first .integerLiteral (hmisses (by decide)),
    Rule.read_of_first .textLiteral (hmisses (by decide)),
    Rule.read_of_first .recordExpression (hmisses (by decide)),
    Rule.read_of_first .unionType (hmisses (by decide)),
    Rule.read_of_first .listLiteral (hmisses (by decide)), hparenthesized]
  cases Rule.identifier.read s <;> rfl

/-- Neither an import nor a primitive expression is no operand. -/
theorem read_importExpression_mismatch {s : List Char}
    (hi : Rule.importClause.read s = .mismatch)
    (hp : Rule.primitiveExpression.read s = .mismatch) :
    Rule.importExpression.read s = .mismatch := by
  have hclause : (call .importClause).readBy Rule.read s = .mismatch := hi
  have hprimitive : (call .primitiveExpression).readBy Rule.read s = .mismatch := hp
  have hselector : (call .selectorExpression).readBy Rule.read s = .mismatch := by
    refine (Rule.read_eq .selectorExpression s).trans ?_
    simp only [Rule.body, Grammar.selectorExpression, readBy_bind, hprimitive,
      Reading.bind_mismatch]
  rw [Rule.read_eq]
  simp only [Rule.body, Grammar.importExpression, readBy_choice_cons, readBy_bind, hclause,
    hselector, Reading.bind_mismatch, Reading.orElse_mismatch, readBy_choice_nil]

/-- A word is a label unless it is excluded. -/
theorem readBy_labelExcept_word {rules : RuleReader} {s : List Char}
    (h : s.head?.any labelStart = true) (excluded : String → Bool) (expected : String) :
    (labelExcept excluded expected).readBy rules s =
      if excluded (String.ofList (wordOf s)) then .mismatch
      else .value (String.ofList (wordOf s)) (behindWord s) := by
  obtain ⟨c, t, rfl, hc⟩ := head?_of_any h
  have hquote : (some c == some '\x60') = false := by
    refine beq_false_of_ne fun heq => ?_
    cases heq
    exact absurd hc (by decide)
  simp only [labelExcept, readBy_bind, readBy_peek, Reading.bind_value, List.head?_cons, hquote,
    Bool.false_eq_true, if_false, bareLabelExcept, readBy_look, Option.any_some, hc,
    Bool.true_and, readBy_ite, readBy_fail, readBy_bareLabel, if_true]
  rfl

theorem readBy_builtin_word {rules : RuleReader} {s : List Char}
    (h : s.head?.any labelStart = true) :
    builtin.readBy rules s =
      if Vocabulary.isBuiltin (String.ofList (wordOf s)) then
        .value (.builtin (String.ofList (wordOf s))) (behindWord s)
      else .mismatch := by
  by_cases hb : Vocabulary.isBuiltin (String.ofList (wordOf s)) = true
  · rw [if_pos hb]
    rw [wordOf] at hb ⊢
    simp only [builtin, readBy_bind, readBy_look, Reading.bind_value, h, hb, Bool.not_true,
      Bool.and_false, Bool.false_eq_true, if_false, readBy_bareLabel, if_true, readBy_pure,
      behindWord]
  · rw [if_neg hb]
    rw [wordOf] at hb
    simp only [builtin, readBy_bind, readBy_look, Reading.bind_value, h, hb, Bool.not_false,
      Bool.and_true, if_true, readBy_fail]

/-- A word that is no variable name is a builtin or nothing. -/
theorem read_identifier_reserved {s : List Char} (h : s.head?.any labelStart = true)
    (hreserved : Vocabulary.isReserved (String.ofList (wordOf s)) = true) :
    Rule.identifier.read s = builtin.read s := by
  have hname : (call .nonreservedLabel).readBy Rule.read s = .mismatch := by
    refine (Rule.read_eq .nonreservedLabel s).trans ?_
    exact (readBy_labelExcept_word h _ _).trans (if_pos hreserved)
  rw [Rule.read_eq]
  simp only [Rule.body, identifier, readBy_bind, readBy_optional?, hname, Reading.bind_mismatch,
    Reading.orElse_mismatch, Reading.bind_value]

/-- A text that begins with a keyword. -/
structure BeginsKeyword (s : List Char) : Prop where
  start : s.head?.any labelStart = true
  isKeyword : Vocabulary.isKeyword (String.ofList (wordOf s)) = true

theorem BeginsKeyword.mem {s : List Char} (h : BeginsKeyword s) :
    ∃ entry ∈ Vocabulary.keywords, entry.2.toList = wordOf s := by
  have hk := h.isKeyword
  simp only [Vocabulary.isKeyword, Vocabulary.keyword?, Option.isSome_map] at hk
  obtain ⟨entry, he, hw⟩ := List.find?_isSome.mp hk
  exact ⟨entry, he, by rw [beq_iff_eq.mp hw, String.toList_ofList]⟩

namespace BeginsKeyword

variable {s : List Char}

theorem readBy_labelExcept (h : BeginsKeyword s) {rules : RuleReader} (expected : String) :
    (labelExcept Vocabulary.isReserved expected).readBy rules s = .mismatch := by
  rw [readBy_labelExcept_word h.start, if_pos]
  rw [Vocabulary.isReserved, h.isKeyword, Bool.true_or]

theorem readBy_builtin (h : BeginsKeyword s) {rules : RuleReader} :
    builtin.readBy rules s = .mismatch := by
  have hbuiltin : Vocabulary.isBuiltin (String.ofList (wordOf s)) = false := by
    have hall : ∀ entry ∈ Vocabulary.keywords,
        Vocabulary.isBuiltin (String.ofList entry.2.toList) = false := by decide
    obtain ⟨entry, he, hw⟩ := h.mem
    exact hw ▸ hall entry he
  rw [readBy_builtin_word h.start, hbuiltin, if_neg Bool.false_ne_true]

theorem isPrefixOf_false (h : BeginsKeyword s) (literal : String)
    (hl : literal.toList.all labelContinue = true)
    (hk : ∀ entry ∈ Vocabulary.keywords, literal.toList.isPrefixOf entry.2.toList = false) :
    literal.toList.isPrefixOf s = false := by
  obtain ⟨entry, he, hw⟩ := h.mem
  exact isPrefixOf_of_word hl (hw ▸ hk entry he)

theorem readBy_scheme (h : BeginsKeyword s) {rules : RuleReader} :
    scheme.readBy rules s = .mismatch := by
  simp only [scheme, readBy_bind, readBy_accept, readBy_expect, Reading.bind_value,
    h.isPrefixOf_false "https" (by decide) (by decide),
    h.isPrefixOf_false "http" (by decide) (by decide), Bool.false_eq_true,
    if_false, Reading.bind_mismatch]

theorem readBy_env (h : BeginsKeyword s) {rules : RuleReader} :
    (expect "env:").readBy rules s = .mismatch := by
  have henv := h.isPrefixOf_false "env" (by decide) (by decide)
  rw [readBy_expect, if_neg]
  intro hp
  obtain ⟨rest, rfl⟩ := List.isPrefixOf_iff_prefix.mp hp
  cases henv

end BeginsKeyword

/-- A text that begins with a keyword, apart from the one for imports that are missing and those for
doubles. -/
structure BeginsMark (s : List Char) : Prop extends BeginsKeyword s where
  noOperand : wordOf s ∉ ["missing".toList, "Infinity".toList, "NaN".toList]

/-- A text that begins with a keyword that no operand and no application begins with. -/
structure BeginsForm (s : List Char) : Prop extends BeginsMark s where
  noApplication : wordOf s ∉ ["merge".toList, "Some".toList, "toMap".toList]

namespace Rule

theorem refuses_importType : Refuses BeginsMark 2 (call importType) := by
  have hmissing : ∀ s, BeginsMark s → (keyword "missing").readBy read s = .mismatch := by
    intro s hs
    rw [readBy_keyword_word "missing" (by decide), if_neg]
    intro hw
    exact hs.noOperand (hw ▸ List.mem_cons_self)
  refine .call (Refuses.choice ?_)
  simp only [List.forall_mem_cons]
  exact ⟨.bind (.plain (by simp) hmissing),
    opens_localImport.mono
      (fun s hs => head?_any_disjoint (not_contains (by decide)) hs.start) (by decide),
    .call (.bind (.plain (by simp [scheme]) fun s hs => hs.readBy_scheme)),
    .call (.bind (.plain (by simp) fun s hs => hs.readBy_env)), fun _ h => nomatch h⟩

theorem refuses_importClause : Refuses BeginsMark 4 (call importClause) :=
  .call (.bind (.call (.bind refuses_importType)))

theorem refuses_identifier : Refuses BeginsKeyword 2 (call identifier) :=
  .call (.optional
    (.call (.plain (doesOnly_labelExcept _ _) fun _ hs => hs.readBy_labelExcept _))
    (.plain doesOnly_builtin fun _ hs => hs.readBy_builtin))

theorem refuses_primitiveExpression : Refuses BeginsMark 3 (call primitiveExpression) := by
  have hopens : ∀ {text : List Char}, text.all (fun c => !labelStart c) = true →
      ∀ s, BeginsMark s → s.head?.any text.contains = false := fun ht s hs =>
    head?_any_disjoint (not_contains ht) hs.start
  have hdigit : ∀ s, BeginsMark s → s.head?.any digit = false := by
    intro s hs
    refine head?_any_disjoint (fun c hc => ?_) hs.start
    rw [labelStart_iff] at hc
    rw [← Bool.not_eq_true, digit_iff]
    omega
  have hdouble : ∀ s, BeginsMark s → Grammar.doubleLiteral.readBy read s = .mismatch :=
    fun s hs => (read_eq doubleLiteral s).symm.trans
      (read_doubleLiteral_word hs.start fun hm => hs.noOperand (List.mem_cons_of_mem _ hm))
  refine .call (Refuses.choice ?_)
  simp only [List.forall_mem_cons]
  exact ⟨.bind (.call (.plain (doesOnly_doubleLiteral ⟨_, rfl⟩) hdouble)),
    .bind (opens_naturalLiteral.mono hdigit (by decide)),
    .bind (opens_integerLiteral.mono (hopens (by decide)) (by decide)),
    opens_textLiteral.mono (hopens (by decide)) (by decide),
    opens_recordExpression.mono (hopens (by decide)) (by decide),
    opens_unionType.mono (hopens (by decide)) (by decide),
    opens_listLiteral.mono (hopens (by decide)) (by decide),
    refuses_identifier.mono (fun _ hs => hs.toBeginsKeyword) (by decide),
    .bind (.plain (by simp)
      fun s hs => beginsWith_expect "(" (by decide) s (hopens (by decide : ['('].all _ = true) s hs)),
    fun _ h => nomatch h⟩

/-- A keyword is no operand, apart from `missing` and the words for doubles. -/
theorem refuses_importExpression : Refuses BeginsMark 5 (call importExpression) := by
  refine .call (Refuses.choice ?_)
  simp only [List.forall_mem_cons]
  exact ⟨.bind refuses_importClause, .call (.bind refuses_primitiveExpression),
    fun _ h => nomatch h⟩

/-- No other keyword begins an application. -/
theorem refuses_applicationExpression : Refuses BeginsForm 7 (call applicationExpression) := by
  have hword : ∀ word ∈ ["merge", "Some", "toMap"], ∀ {α : Type} (next : Unit → Grammar α),
      Refuses BeginsForm 5 (keyword word >>= next) := by
    intro word hm α next
    have hall : ∀ word ∈ ["merge", "Some", "toMap"], word.toList.all labelContinue = true ∧
        word.toList ∈ ["merge".toList, "Some".toList, "toMap".toList] := by decide
    obtain ⟨hcontinue, hmem⟩ := hall word hm
    refine .bind (.plain (by simp) fun s hs => ?_)
    rw [readBy_keyword_word word hcontinue, if_neg]
    intro hw
    exact hs.noApplication (hw ▸ hmem)
  refine .call (.bind (.call (Refuses.choice ?_)))
  simp only [List.forall_mem_cons]
  exact ⟨hword "merge" (by decide) _, hword "Some" (by decide) _, hword "toMap" (by decide) _,
    refuses_importExpression.mono (fun _ hs => hs.toBeginsMark) (by decide), fun _ h => nomatch h⟩

theorem refuses_operatorExpression : Refuses BeginsForm 8 (call operatorExpression) :=
  .call (.bind refuses_applicationExpression)

end Rule

end DhallSyntax
