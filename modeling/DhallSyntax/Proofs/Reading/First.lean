import DhallSyntax.Proofs.Grammar.Faults
import DhallSyntax.Proofs.Reading.Parts
import DhallSyntax.Proofs.Text.CharClass

/-!
The characters that rules begin with. Main statement: `Rule.read_of_first`, a rule does not match a
text that begins with none of its first characters, whatever follows.
-/

namespace DhallSyntax

open CharClass

/-- The first characters of numbers, besides those of the words for doubles. -/
def CharClass.signOrDigit : CharClass := fun c => digit c || c == '+' || c == '-'

theorem CharClass.signOrDigit_iff {c : Char} :
    signOrDigit c = true ↔ 48 ≤ c.toNat ∧ c.toNat ≤ 57 ∨ c.toNat = 43 ∨ c.toNat = 45 := by
  simp only [signOrDigit, Bool.or_eq_true, digit_iff, beq_iff_eq, ← Char.toNat_inj,
    Char.reduceToNat, or_assoc]

/-- The first characters of primitive expressions. -/
def CharClass.primitiveStart : CharClass := fun c =>
  labelStart c || signOrDigit c || "\x60\"'\x7b<[(".toList.contains c

/-- The first characters of paths, URLs, environment variables and `missing`. -/
def CharClass.importStart : CharClass := "./~ehm".toList.contains

/-- The first characters of whatever stands between operators. -/
def CharClass.operandStart : CharClass := fun c => primitiveStart c || importStart c

/-- The first characters of a rule. -/
def Rule.first : Rule → CharClass
  | doubleLiteral => fun c => signOrDigit c || c == 'I' || c == 'N'
  | naturalLiteral => digit
  | integerLiteral => "+-".toList.contains
  | label | nonreservedLabel | identifier => fun c => labelStart c || c == '\x60'
  | textLiteral => "\"'".toList.contains
  | doubleQuoteLiteral => "\"".toList.contains
  | singleQuoteLiteral => "'".toList.contains
  | importClause | importHashed | importType => importStart
  | localImport => "./~".toList.contains
  | httpImport => "h".toList.contains
  | envImport => "e".toList.contains
  | lambdaExpression => "λ\\".toList.contains
  | ifExpression => "i".toList.contains
  | letExpression | letBinding => "l".toList.contains
  | forallExpression => "∀f".toList.contains
  | mergeExpression => "m".toList.contains
  | emptyListExpression | listLiteral => "[".toList.contains
  | toMapExpression => "t".toList.contains
  | recordExpression => "\x7b".toList.contains
  | unionType => "<".toList.contains
  | primitiveExpression | selectorExpression => primitiveStart
  | importExpression | firstApplicationExpression | applicationExpression | operatorExpression
  | arrowExpression | annotatedExpression => operandStart
  | expression => fun c => operandStart c || "λ\\∀".toList.contains c

namespace Grammar

variable {rules : RuleReader} {α β : Type}

/-- A part that does not match a text unless it begins with a character of a class. -/
def BeginsWith (rules : RuleReader) (chars : CharClass) (g : Grammar α) : Prop :=
  ∀ s, s.head?.any chars = false → g.readBy rules s = .mismatch

theorem BeginsWith.mono {chars chars' : CharClass} {g : Grammar α}
    (h : g.BeginsWith rules chars) (hc : ∀ c, chars c = true → chars' c = true) :
    g.BeginsWith rules chars' := by
  intro s hs
  refine h s ?_
  cases s with
  | nil => rfl
  | cons c s =>
    have hs' : chars' c = false := hs
    exact Bool.eq_false_iff.mpr fun hc' => absurd (hc c hc') (by rw [hs']; exact Bool.false_ne_true)

/-- It is enough to look at the characters of a list. -/
theorem BeginsWith.of_all {text : List Char} {chars : CharClass} {g : Grammar α}
    (h : g.BeginsWith rules text.contains) (hall : text.all chars = true) :
    g.BeginsWith rules chars :=
  h.mono fun c hc => List.all_eq_true.mp hall c (List.contains_iff_mem.mp hc)

theorem BeginsWith.bind {chars : CharClass} {first : Grammar β}
    (h : first.BeginsWith rules chars) (next : β → Grammar α) :
    (first >>= next).BeginsWith rules chars := by
  intro s hs
  rw [readBy_bind, h s hs, Reading.bind_mismatch]

theorem BeginsWith.choice {chars : CharClass} {alternatives : List (Grammar α)}
    (h : ∀ g ∈ alternatives, g.BeginsWith rules chars) :
    (choice alternatives).BeginsWith rules chars := by
  intro s hs
  induction alternatives with
  | nil => rfl
  | cons g rest ih =>
    obtain ⟨hg, hrest⟩ := List.forall_mem_cons.mp h
    rw [readBy_choice_cons, hg s hs, Reading.orElse_mismatch, ih hrest]

theorem isPrefixOf_of_head {chars : CharClass} {literal s : List Char}
    (h : literal.head?.any chars = true) (hs : s.head?.any chars = false) :
    literal.isPrefixOf s = false := by
  cases literal with
  | nil => cases h
  | cons c literal =>
    cases s with
    | nil => rfl
    | cons d s =>
      have hc : chars c = true := h
      have hd : chars d = false := hs
      have hcd : (c == d) = false := beq_false_of_ne fun he => by simp [he, hd] at hc
      rw [List.isPrefixOf, hcd, Bool.false_and]

/-- Nothing is taken at a text that does not begin as one of the literals does. -/
theorem beginsWith_expectAny {literals : List String} {chars : CharClass}
    (h : ∀ l ∈ literals, l.toList.head?.any chars = true) :
    (expectAny literals).BeginsWith rules chars := by
  intro s hs
  induction literals with
  | nil => rfl
  | cons literal literals ih =>
    obtain ⟨hl, hrest⟩ := List.forall_mem_cons.mp h
    rw [readBy_expectAny_cons, isPrefixOf_of_head hl hs, if_neg Bool.false_ne_true, ih hrest]

theorem beginsWith_expect (literal : String) {chars : CharClass}
    (h : literal.toList.head?.any chars = true) : (expect literal).BeginsWith rules chars :=
  (beginsWith_expectAny (List.forall_mem_singleton.mpr h)).bind _

theorem beginsWith_keyword (word : String) {chars : CharClass}
    (h : word.toList.head?.any chars = true) : (keyword word).BeginsWith rules chars := by
  intro s hs
  rw [readBy_keyword, isPrefixOf_of_head h hs, Bool.false_and, if_neg Bool.false_ne_true]

theorem beginsWith_takeWhile1 (chars : CharClass) (expected : String) :
    (takeWhile1 chars expected).BeginsWith rules chars := by
  intro s hs
  rw [readBy_takeWhile1, if_pos]
  cases s with
  | nil => rfl
  | cons c s =>
    have hc : chars c = false := hs
    rw [List.takeWhile_cons_of_neg (by rw [hc]; exact Bool.false_ne_true)]
    rfl

theorem readBy_accept_of_head (literal : String) {chars : CharClass}
    (h : literal.toList.head?.any chars = true) {s : List Char} (hs : s.head?.any chars = false) :
    (accept literal).readBy rules s = .value false s := by
  rw [readBy_accept, isPrefixOf_of_head h hs, if_neg Bool.false_ne_true]

theorem readBy_sign_of_head {s : List Char} (hs : s.head?.any signOrDigit = false) :
    sign.readBy rules s = .value false s := by
  cases s with
  | nil => rfl
  | cons c s =>
    have hc : (c == '+' || c == '-') = false := by
      have hs : signOrDigit c = false := hs
      simp only [signOrDigit, Bool.or_assoc, Bool.or_eq_false_iff] at hs
      simp only [hs.2.1, hs.2.2, Bool.or_false]
    rw [sign, readBy_bind, readBy_takeIf_cons, hc, if_neg Bool.false_ne_true, Reading.bind_value]
    rfl

theorem beginsWith_doubleLiteral : doubleLiteral.BeginsWith rules Rule.doubleLiteral.first := by
  intro s hs
  have hfind : (specialDoubles.find? fun entry => entry.1.toList.isPrefixOf s) = none := by
    refine List.find?_eq_none.mpr fun entry he => ?_
    have hhead : ∀ entry ∈ specialDoubles,
        entry.1.toList.head?.any Rule.doubleLiteral.first = true := by decide
    rw [isPrefixOf_of_head (hhead entry he) hs]
    exact Bool.false_ne_true
  have hnumber : s.head?.any signOrDigit = false := by
    cases s with
    | nil => rfl
    | cons c s =>
      have hs : (signOrDigit c || c == 'I' || c == 'N') = false := hs
      rw [Bool.or_assoc, Bool.or_eq_false_iff] at hs
      exact hs.1
  have hdigits : digits.readBy rules s = .mismatch := by
    have hsub : ∀ c, digit c = true → signOrDigit c = true := by
      intro c hc
      simp only [signOrDigit, hc, Bool.true_or]
    exact (beginsWith_takeWhile1 digit _).mono hsub s hnumber
  simp only [doubleLiteral, readBy_bind, readBy_look, Reading.bind_value, hfind,
    readBy_sign_of_head hnumber, hdigits, Reading.bind_mismatch]

/-- A bare label is the longest run of its characters, if that begins as a label does. -/
theorem readBy_bareLabel (s : List Char) :
    bareLabel.readBy rules s =
      if s.head?.any labelStart then
        .value (String.ofList (s.takeWhile labelContinue)) (s.dropWhile labelContinue)
      else .mismatch := by
  cases s with
  | nil => rfl
  | cons c s =>
    simp only [bareLabel, readBy_bind, readBy_peek, Reading.bind_value, List.head?_cons,
      Option.any_some, readBy_ite, readBy_takeWhile, readBy_pure, readBy_fail]
    rfl

theorem readBy_bareLabel_of_head {s : List Char} (hs : s.head?.any labelStart = false) :
    bareLabel.readBy rules s = .mismatch := by
  rw [readBy_bareLabel, hs, if_neg Bool.false_ne_true]

theorem head?_any_of_or {chars chars' : CharClass} {s : List Char}
    (h : s.head?.any (fun c => chars c || chars' c) = false) :
    s.head?.any chars = false ∧ s.head?.any chars' = false := by
  cases s with
  | nil => exact ⟨rfl, rfl⟩
  | cons c s => exact Bool.or_eq_false_iff.mp h

theorem beginsWith_labelExcept (excluded : String → Bool) (expected : String) :
    (labelExcept excluded expected).BeginsWith rules Rule.label.first := by
  intro s hs
  obtain ⟨hstart, hquote⟩ := head?_any_of_or hs
  have hquote' : (s.head? == some '\x60') = false := by
    cases s with
    | nil => rfl
    | cons c s => exact hquote
  simp only [labelExcept, readBy_bind, readBy_peek, Reading.bind_value, hquote', Bool.false_eq_true,
    if_false, bareLabelExcept, readBy_look, readBy_ite, readBy_fail,
    readBy_bareLabel_of_head hstart, ite_self]

theorem beginsWith_pathComponent : pathComponent.BeginsWith rules "/".toList.contains :=
  (beginsWith_expect _ (by decide)).bind _

theorem beginsWith_localImport : localImport.BeginsWith rules Rule.localImport.first := by
  intro s hs
  have hcomponent : pathComponent.readBy rules s = .mismatch :=
    beginsWith_pathComponent.of_all (by decide) s hs
  have hanchor : anchor.readBy rules s = .value .absolute s := by
    simp only [anchor, readBy_bind, readBy_accept_of_head ".." (by decide) hs,
      readBy_accept_of_head "." (by decide) hs, readBy_accept_of_head "~" (by decide) hs,
      Reading.bind_value, Bool.false_eq_true, if_false, readBy_pure]
  simp only [localImport, readBy_bind, hanchor, Reading.bind_value, hcomponent,
    Reading.bind_mismatch]

/-! ## Parts that refuse a text -/

/-- A part that does not match a text of some kind, for a reason that is found at its beginning:
along a way through the part that calls at most so many rules inside each other, opens no expression
and takes nothing. -/
inductive Refuses (P : List Char → Prop) : (levels : Nat) → {α : Type} → Grammar α → Prop where
  | plain {levels : Nat} {α : Type} {g : Grammar α} : g.CallFree →
      (∀ s, P s → g.readBy Rule.read s = .mismatch) → Refuses P levels g
  | bind {levels : Nat} {α β : Type} {first : Grammar β} {next : β → Grammar α} :
      Refuses P levels first → Refuses P levels (.bind first next)
  /-- The first part takes nothing either, but matches. -/
  | pass {levels : Nat} {α β : Type} {first : Grammar β} {next : β → Grammar α} (b : β) :
      first.CallFree → (∀ s, P s → first.readBy Rule.read s = .value b s) →
      Refuses P levels (next b) → Refuses P levels (.bind first next)
  | optional {levels : Nat} {α β : Type} {part : Grammar β} {next : Option β → Grammar α} :
      Refuses P levels part → Refuses P levels (next none) →
      Refuses P levels (.bind (optional? part) next)
  | orElse {levels : Nat} {α : Type} {first second : Grammar α} : Refuses P levels first →
      Refuses P levels second → Refuses P levels (.orElse first second)
  | call {levels : Nat} {rule : Rule} : Refuses P levels rule.body →
      Refuses P (levels + 1) (.call rule)

namespace Refuses

variable {P Q : List Char → Prop} {levels levels' : Nat} {g : Grammar α}

theorem mono (h : Refuses P levels g) (hp : ∀ s, Q s → P s) (hl : levels ≤ levels') :
    Refuses Q levels' g := by
  induction h generalizing levels' with
  | plain hg hr => exact .plain hg fun s hs => hr s (hp s hs)
  | bind _ ih => exact .bind (ih hl)
  | pass b hg hr _ ih => exact .pass b hg (fun s hs => hr s (hp s hs)) (ih hl)
  | optional _ _ ihp ihn => exact .optional (ihp hl) (ihn hl)
  | orElse _ _ ihf ihs => exact .orElse (ihf hl) (ihs hl)
  | call _ ih =>
    obtain ⟨k, rfl⟩ := Nat.exists_eq_add_of_le' (Nat.lt_of_lt_of_le (Nat.succ_pos _) hl)
    exact .call (ih (Nat.le_of_succ_le_succ hl))

theorem choice {alternatives : List (Grammar α)} (h : ∀ g ∈ alternatives, Refuses P levels g) :
    Refuses P levels (choice alternatives) := by
  induction alternatives with
  | nil => exact .plain trivial fun _ _ => rfl
  | cons g rest ih =>
    obtain ⟨hg, hrest⟩ := List.forall_mem_cons.mp h
    exact .orElse hg (ih hrest)

/-- What is refused does not match. -/
theorem read (h : Refuses P levels g) {s : List Char} (hs : P s) :
    g.readBy Rule.read s = .mismatch := by
  induction h with
  | plain _ hr => exact hr s hs
  | @bind _ _ _ first next _ ih =>
    refine (readBy_bind first next s).trans ?_
    rw [ih, Reading.bind_mismatch]
  | @pass _ _ _ first next b _ hr _ ih =>
    refine (readBy_bind first next s).trans ?_
    rw [hr s hs, Reading.bind_value, ih]
  | @optional _ _ _ part next _ _ ihp ihn =>
    refine (readBy_bind (optional? part) next s).trans ?_
    rw [readBy_optional?, ihp, Reading.bind_mismatch, Reading.orElse_mismatch, Reading.bind_value,
      ihn]
  | orElse _ _ ihf ihs => rw [readBy_orElse, ihf, Reading.orElse_mismatch, ihs]
  | call _ ih => exact (Rule.read_eq _ s).trans ih

end Refuses

/-- A part that refuses a text that begins with none of some characters. -/
abbrev OpensWith (chars : CharClass) (levels : Nat) (g : Grammar α) : Prop :=
  Refuses (fun s => s.head?.any chars = false) levels g

theorem OpensWith.of_class {chars chars' : CharClass} {levels levels' : Nat} {g : Grammar α}
    (h : OpensWith chars levels g) (hc : ∀ c, chars c = true → chars' c = true)
    (hl : levels ≤ levels') : OpensWith chars' levels' g := by
  refine Refuses.mono h (fun s hs => ?_) hl
  cases s with
  | nil => rfl
  | cons c s => exact Bool.eq_false_iff.mpr fun hcc => absurd (hc c hcc) (Bool.eq_false_iff.mp hs)

/-- It is enough to look at the characters of a list. -/
theorem OpensWith.of_all {text : List Char} {chars : CharClass} {levels levels' : Nat} {g : Grammar α}
    (h : OpensWith text.contains levels g) (hall : text.all chars = true) (hl : levels ≤ levels') :
    OpensWith chars levels' g :=
  h.of_class (fun c hc => List.all_eq_true.mp hall c (List.contains_iff_mem.mp hc)) hl

end Grammar

/-! ## Rules -/

namespace Rule

open Grammar

theorem opens_keyword (word : String) {chars : CharClass} {levels : Nat}
    (h : word.toList.head?.any chars = true) : OpensWith chars levels (keyword word) :=
  .plain (by simp) (beginsWith_keyword word h)

theorem opens_expect (literal : String) {chars : CharClass} {levels : Nat}
    (h : literal.toList.head?.any chars = true) : OpensWith chars levels (expect literal) :=
  .plain (by simp) (beginsWith_expect literal h)

theorem opens_expectAny {literals : List String} {chars : CharClass} {levels : Nat}
    (h : ∀ l ∈ literals, l.toList.head?.any chars = true) :
    OpensWith chars levels (expectAny literals) :=
  .plain (by simp) (beginsWith_expectAny h)

theorem opens_localImport : OpensWith localImport.first 1 (call localImport) :=
  .call (.plain (by simp [body, Grammar.localImport, anchor, Grammar.pathComponent])
    beginsWith_localImport)

theorem opens_httpImport : OpensWith httpImport.first 1 (call httpImport) := by
  refine .call (.bind (.plain (by simp [scheme]) fun s hs => ?_))
  simp only [scheme, readBy_bind, readBy_accept_of_head "https" (by decide) hs,
    Reading.bind_value, Bool.false_eq_true, if_false,
    beginsWith_expect "http" (by decide) s hs, Reading.bind_mismatch]

theorem opens_envImport : OpensWith envImport.first 1 (call envImport) :=
  .call (.bind (opens_expect _ (by decide)))

theorem opens_importType : OpensWith importStart 2 (call importType) := by
  refine .call (Refuses.choice ?_)
  simp only [List.forall_mem_cons]
  exact ⟨.bind (opens_keyword _ (by decide)),
    opens_localImport.of_all (by decide) (by decide),
    opens_httpImport.of_all (by decide) (by decide),
    opens_envImport.of_all (by decide) (by decide), fun _ h => nomatch h⟩

theorem opens_importHashed : OpensWith importStart 3 (call importHashed) :=
  .call (.bind opens_importType)

theorem opens_importClause : OpensWith importStart 4 (call importClause) :=
  .call (.bind opens_importHashed)

theorem opens_doubleLiteral : OpensWith doubleLiteral.first 1 (call doubleLiteral) :=
  .call (.plain (doesOnly_doubleLiteral ⟨_, rfl⟩) beginsWith_doubleLiteral)

theorem opens_naturalLiteral : OpensWith digit 1 (call naturalLiteral) :=
  .call (.bind (.plain (by simp [digits]) (beginsWith_takeWhile1 digit _)))

theorem opens_integerLiteral : OpensWith integerLiteral.first 1 (call integerLiteral) :=
  .call (.bind (opens_expectAny (by decide)))

theorem opens_labelExcept (excluded : String → Bool) (expected : String) :
    OpensWith label.first 0 (labelExcept excluded expected) :=
  .plain (doesOnly_labelExcept _ _) (beginsWith_labelExcept _ _)

theorem opens_label : OpensWith label.first 1 (call label) := .call (opens_labelExcept _ _)

theorem opens_nonreservedLabel : OpensWith label.first 1 (call nonreservedLabel) :=
  .call (opens_labelExcept _ _)

theorem opens_identifier : OpensWith label.first 2 (call identifier) := by
  refine .call (.optional opens_nonreservedLabel (.plain doesOnly_builtin fun s hs => ?_))
  obtain ⟨hstart, -⟩ := head?_any_of_or hs
  simp only [builtin, readBy_bind, readBy_look, Reading.bind_value, hstart, Bool.false_and,
    Bool.false_eq_true, if_false, readBy_bareLabel_of_head hstart, Reading.bind_mismatch]

theorem opens_doubleQuoteLiteral : OpensWith doubleQuoteLiteral.first 1 (call doubleQuoteLiteral) :=
  .call (.bind (opens_expect _ (by decide)))

theorem opens_singleQuoteLiteral : OpensWith singleQuoteLiteral.first 1 (call singleQuoteLiteral) :=
  .call (.bind (opens_expect _ (by decide)))

theorem opens_textLiteral : OpensWith textLiteral.first 2 (call textLiteral) := by
  refine .call (Refuses.choice ?_)
  simp only [List.forall_mem_cons]
  exact ⟨opens_doubleQuoteLiteral.of_all (by decide) (by decide),
    opens_singleQuoteLiteral.of_all (by decide) (by decide), fun _ h => nomatch h⟩

theorem opens_recordExpression : OpensWith recordExpression.first 1 (call recordExpression) :=
  .call (.bind (opens_expect _ (by decide)))

theorem opens_unionType : OpensWith unionType.first 1 (call unionType) :=
  .call (.bind (opens_expect _ (by decide)))

theorem opens_listLiteral : OpensWith listLiteral.first 1 (call listLiteral) :=
  .call (.bind (opens_expect _ (by decide)))

theorem opens_primitiveExpression : OpensWith primitiveStart 3 (call primitiveExpression) := by
  have hlabel : ∀ c, label.first c = true → primitiveStart c = true := by
    intro c hc
    obtain hc | hc := Bool.or_eq_true_iff.mp hc
    · simp only [primitiveStart, hc, Bool.true_or]
    · rw [beq_iff_eq.mp hc]
      decide
  have hdouble : ∀ c, doubleLiteral.first c = true → primitiveStart c = true := by
    intro c hc
    simp only [first, Bool.or_eq_true, beq_iff_eq] at hc
    obtain (hc | rfl) | rfl := hc
    · simp only [primitiveStart, hc, Bool.or_true, Bool.true_or]
    · decide
    · decide
  have hdigit : ∀ c, digit c = true → primitiveStart c = true := by
    intro c hc
    simp only [primitiveStart, signOrDigit, hc, Bool.or_true, Bool.true_or]
  refine .call (Refuses.choice ?_)
  simp only [List.forall_mem_cons]
  exact ⟨.bind (opens_doubleLiteral.of_class hdouble (by decide)),
    .bind (opens_naturalLiteral.of_class hdigit (by decide)),
    .bind (opens_integerLiteral.of_all (by decide) (by decide)),
    opens_textLiteral.of_all (by decide) (by decide),
    opens_recordExpression.of_all (by decide) (by decide),
    opens_unionType.of_all (by decide) (by decide),
    opens_listLiteral.of_all (by decide) (by decide),
    opens_identifier.of_class hlabel (by decide),
    .bind (opens_expect _ (by decide)), fun _ h => nomatch h⟩

theorem opens_selectorExpression : OpensWith primitiveStart 4 (call selectorExpression) :=
  .call (.bind opens_primitiveExpression)

theorem opens_importExpression : OpensWith operandStart 5 (call importExpression) := by
  have himport : ∀ c, importStart c = true → operandStart c = true := by
    intro c hc
    simp only [operandStart, hc, Bool.or_true]
  have hprimitive : ∀ c, primitiveStart c = true → operandStart c = true := by
    intro c hc
    simp only [operandStart, hc, Bool.true_or]
  refine .call (Refuses.choice ?_)
  simp only [List.forall_mem_cons]
  exact ⟨.bind (opens_importClause.of_class himport (by decide)),
    opens_selectorExpression.of_class hprimitive (by decide), fun _ h => nomatch h⟩

theorem opens_firstApplicationExpression :
    OpensWith operandStart 6 (call firstApplicationExpression) := by
  refine .call (Refuses.choice ?_)
  simp only [List.forall_mem_cons]
  exact ⟨.bind (opens_keyword _ (by decide)), .bind (opens_keyword _ (by decide)),
    .bind (opens_keyword _ (by decide)), opens_importExpression, fun _ h => nomatch h⟩

theorem opens_applicationExpression : OpensWith operandStart 7 (call applicationExpression) :=
  .call (.bind opens_firstApplicationExpression)

theorem opens_operatorExpression : OpensWith operandStart 8 (call operatorExpression) :=
  .call (.bind opens_applicationExpression)

theorem opens_arrowExpression : OpensWith operandStart 9 (call arrowExpression) :=
  .call (.bind opens_operatorExpression)

theorem opens_annotatedExpression : OpensWith operandStart 9 (call annotatedExpression) :=
  .call (.bind opens_operatorExpression)

theorem opens_lambdaExpression : OpensWith lambdaExpression.first 1 (call lambdaExpression) :=
  .call (.bind (opens_expectAny (by decide)))

theorem opens_ifExpression : OpensWith ifExpression.first 1 (call ifExpression) :=
  .call (.bind (opens_keyword _ (by decide)))

theorem opens_letBinding : OpensWith letBinding.first 1 (call letBinding) :=
  .call (.bind (opens_keyword _ (by decide)))

theorem opens_letExpression : OpensWith letExpression.first 2 (call letExpression) :=
  .call (.bind opens_letBinding)

theorem opens_forallExpression : OpensWith forallExpression.first 1 (call forallExpression) :=
  .call (.pass false trivial (fun _ hs => readBy_accept_of_head "∀" (by decide) hs)
    (.bind (opens_keyword "forall" (by decide))))

theorem opens_mergeExpression : OpensWith mergeExpression.first 1 (call mergeExpression) :=
  .call (.bind (opens_keyword _ (by decide)))

theorem opens_emptyListExpression : OpensWith emptyListExpression.first 1 (call emptyListExpression) :=
  .call (.bind (opens_expect _ (by decide)))

theorem opens_toMapExpression : OpensWith toMapExpression.first 1 (call toMapExpression) :=
  .call (.bind (opens_keyword _ (by decide)))

/-- The alternatives of an expression. -/
theorem opens_forms : ∀ g ∈ ([call lambdaExpression, call ifExpression, call letExpression,
    call forallExpression, call arrowExpression, call mergeExpression, call emptyListExpression,
    call toMapExpression, call annotatedExpression] : List (Grammar Expr)),
    OpensWith expression.first 9 g := by
  have hoperand : ∀ c, operandStart c = true → expression.first c = true := by
    intro c hc
    simp only [first, hc, Bool.true_or]
  simp only [List.forall_mem_cons]
  exact ⟨opens_lambdaExpression.of_all (by decide) (by decide),
    opens_ifExpression.of_all (by decide) (by decide),
    opens_letExpression.of_all (by decide) (by decide),
    opens_forallExpression.of_all (by decide) (by decide),
    opens_arrowExpression.of_class hoperand (by decide),
    opens_mergeExpression.of_all (by decide) (by decide),
    opens_emptyListExpression.of_all (by decide) (by decide),
    opens_toMapExpression.of_all (by decide) (by decide),
    opens_annotatedExpression.of_class hoperand (by decide), fun _ h => nomatch h⟩

/-- Apart from expressions themselves, a rule looks at no more than the first character of a text
that begins with none of its first characters. -/
theorem opens (rule : Rule) (h : rule ≠ expression) : OpensWith rule.first 9 (call rule) := by
  have hsame : ∀ {chars : CharClass} {levels : Nat} {rule : Rule}, levels ≤ 9 →
      OpensWith chars levels (call rule) → OpensWith chars 9 (call rule) :=
    fun hl hr => hr.of_class (fun _ hc => hc) hl
  cases rule with
  | expression => exact absurd rfl h
  | doubleLiteral => exact hsame (by decide) opens_doubleLiteral
  | naturalLiteral => exact hsame (by decide) opens_naturalLiteral
  | integerLiteral => exact hsame (by decide) opens_integerLiteral
  | label => exact hsame (by decide) opens_label
  | nonreservedLabel => exact hsame (by decide) opens_nonreservedLabel
  | identifier => exact hsame (by decide) opens_identifier
  | textLiteral => exact hsame (by decide) opens_textLiteral
  | doubleQuoteLiteral => exact hsame (by decide) opens_doubleQuoteLiteral
  | singleQuoteLiteral => exact hsame (by decide) opens_singleQuoteLiteral
  | importClause => exact hsame (by decide) opens_importClause
  | importHashed => exact hsame (by decide) opens_importHashed
  | importType => exact hsame (by decide) opens_importType
  | localImport => exact hsame (by decide) opens_localImport
  | httpImport => exact hsame (by decide) opens_httpImport
  | envImport => exact hsame (by decide) opens_envImport
  | lambdaExpression => exact hsame (by decide) opens_lambdaExpression
  | ifExpression => exact hsame (by decide) opens_ifExpression
  | letExpression => exact hsame (by decide) opens_letExpression
  | letBinding => exact hsame (by decide) opens_letBinding
  | forallExpression => exact hsame (by decide) opens_forallExpression
  | arrowExpression => exact hsame (by decide) opens_arrowExpression
  | mergeExpression => exact hsame (by decide) opens_mergeExpression
  | emptyListExpression => exact hsame (by decide) opens_emptyListExpression
  | toMapExpression => exact hsame (by decide) opens_toMapExpression
  | annotatedExpression => exact hsame (by decide) opens_annotatedExpression
  | operatorExpression => exact hsame (by decide) opens_operatorExpression
  | applicationExpression => exact hsame (by decide) opens_applicationExpression
  | firstApplicationExpression => exact hsame (by decide) opens_firstApplicationExpression
  | importExpression => exact hsame (by decide) opens_importExpression
  | selectorExpression => exact hsame (by decide) opens_selectorExpression
  | primitiveExpression => exact hsame (by decide) opens_primitiveExpression
  | recordExpression => exact hsame (by decide) opens_recordExpression
  | unionType => exact hsame (by decide) opens_unionType
  | listLiteral => exact hsame (by decide) opens_listLiteral

/-- A rule does not match a text that begins with none of its first characters. -/
theorem read_of_first (rule : Rule) {s : List Char} (h : s.head?.any rule.first = false) :
    rule.read s = .mismatch := by
  by_cases he : rule = expression
  · subst he
    exact (read_eq expression s).trans ((Refuses.choice opens_forms).read h)
  · exact (opens rule he).read h

/-- The same where the first character is known. -/
theorem read_of_head {s : List Char} {c : Char} (hs : s.head? = some c) (rule : Rule)
    (h : rule.first c = false) : rule.read s = .mismatch :=
  rule.read_of_first (by rw [hs]; exact h)

end Rule

end DhallSyntax
