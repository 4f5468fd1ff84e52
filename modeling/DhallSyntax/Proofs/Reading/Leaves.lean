import DhallSyntax.Proofs.Reading.Numbers
import DhallSyntax.Proofs.Tree.Groups

/-!
Written leaves are read back: labels, variables, builtins and numbers. What follows a number must
not go on with it.
-/

namespace DhallSyntax

open Grammar CharClass

variable {rules : RuleReader}

/-! ## Runs of characters -/

theorem readBy_takeWhile1_run {chars : CharClass} {s t : List Char} (hs : s ≠ [])
    (h : ∀ c ∈ s, chars c = true) (ht : t.head?.any chars = false) (expected : String) :
    (takeWhile1 chars expected).readBy rules (s ++ t) = .value s t := by
  obtain ⟨htake, hdrop⟩ := takeWhile_append_stop h ht
  have hne : s.isEmpty = false := List.isEmpty_eq_false_iff.mpr hs
  rw [readBy_takeWhile1, htake, hdrop, hne, if_neg Bool.false_ne_true]

/-! ## Labels -/

theorem readBy_quotedLabel {l : String} (h : IsLabel l) (t : List Char) :
    Grammar.quotedLabel.readBy rules (Rendering.label l ++ t) = .value l t := by
  have hshape : Rendering.label l ++ t = '\x60' :: (l.toList ++ '\x60' :: t) := by
    simp [Rendering.label]
  obtain ⟨htake, hdrop⟩ := takeWhile_append_stop (t := '\x60' :: t) h rfl
  rw [hshape]
  simp [Grammar.quotedLabel, readBy_expect, htake, hdrop]

theorem readBy_labelExcept {l : String} (h : IsLabel l) (excluded : String → Bool)
    (expected : String) (t : List Char) :
    (labelExcept excluded expected).readBy rules (Rendering.label l ++ t) = .value l t := by
  have hquote : ((Rendering.label l ++ t).head? == some '\x60') = true := rfl
  simp only [labelExcept, readBy_bind, readBy_peek, Reading.bind_value, hquote, if_true,
    readBy_quotedLabel h t]

theorem read_label {l : String} (h : IsLabel l) (t : List Char) :
    Rule.label.read (Rendering.label l ++ t) = .value l t :=
  (Rule.read_eq _ _).trans (readBy_labelExcept h _ _ t)

theorem read_nonreservedLabel {l : String} (h : IsLabel l) (t : List Char) :
    Rule.nonreservedLabel.read (Rendering.label l ++ t) = .value l t :=
  (Rule.read_eq _ _).trans (readBy_labelExcept h _ _ t)

/-! ## Numbers -/

/-- The end of the source, or a space. -/
def Spaced (t : List Char) : Prop := ∀ c ∈ t.head?, c = ' '

theorem Closes.spaced {t : List Char} (h : Closes t) : Spaced t := by
  obtain rfl | ⟨r, rfl⟩ := h
  · exact fun _ h => by cases h
  · rintro c ⟨⟩
    rfl

/-- A space goes on with no run of characters that it is not one of. -/
theorem Spaced.head?_any {t : List Char} (h : Spaced t) {chars : CharClass}
    (hc : chars ' ' = false) : t.head?.any chars = false := by
  cases t with
  | nil => rfl
  | cons c t =>
    obtain rfl := h c rfl
    exact hc

/-- The digits of a number. -/
def digitRun (n : Nat) : DigitRun where
  chars := Numeral.digitsOf n
  ne_nil := Numeral.digitsOf_ne_nil n
  digits := Numeral.digitsOf_isDigit n

theorem head_digitRun (run : DigitRun) (t : List Char) {chars : CharClass}
    (h : ∀ c, c.isDigit = true → chars c = false) : (run.chars ++ t).head?.any chars = false := by
  obtain ⟨c, rest, hc, hd⟩ := run.cons
  rw [hc]
  exact h c hd

theorem tight_digit (run : DigitRun) (t : List Char) : Whitespace.Tight (run.chars ++ t) :=
  Whitespace.tight_of_head (head_digitRun run t (not_contains (by decide)))

theorem read_naturalLiteral (n : Nat) {t : List Char} (ht : Spaced t) :
    Rule.naturalLiteral.read (Numeral.digitsOf n ++ t) = .value n t := by
  have hd : digits.read (Numeral.digitsOf n ++ t) = .value (Numeral.digitsOf n) t :=
    readBy_digits (digitRun n) (ht.head?_any rfl)
  rw [Rule.read_eq]
  simp only [Rule.body, naturalLiteral, readBy_bind, hd, Reading.bind_value, readBy_pure,
    Numeral.positional_digitsOf]

theorem writes_natural {n : Int} (h : 0 ≤ n) :
    Writes (Rendering.natural n.toNat) (.natural n) where
  tight t := tight_digit (digitRun n.toNat) t
  read t ht := by
    have hs := ht.spaced
    have hdouble : Rule.doubleLiteral.read (Numeral.digitsOf n.toNat ++ t) = .mismatch :=
      (Rule.read_eq _ _).trans
        (readBy_doubleLiteral_number .none (digitRun n.toNat) (hs.head?_any rfl))
    refine read_expression_plain (plainStart_of_first ?_) ?_ ht.ends
    · exact head_digitRun (digitRun n.toNat) t (not_contains (by decide))
    · rw [Rendering.natural, read_primitiveExpression, hdouble, read_naturalLiteral n.toNat hs]
      simp [Int.toNat_of_nonneg h]

theorem tight_sign (sign : SignText) (run : DigitRun) (t : List Char) :
    Whitespace.Tight (sign.chars ++ (run.chars ++ t)) := by
  cases sign with
  | none => exact tight_digit run t
  | plus => rfl
  | minus =>
    obtain ⟨c, rest, hc, hd⟩ := run.cons
    have hne : c ≠ '-' := (Numeral.digit_not_sign hd).2
    rw [hc]
    simp [Whitespace.Tight, Whitespace.chunk, SignText.chars, hne]

theorem head_sign (sign : SignText) (run : DigitRun) (t : List Char) {chars : CharClass}
    (h : ∀ c, signOrDigit c = true → chars c = false) :
    (sign.chars ++ (run.chars ++ t)).head?.any chars = false := by
  cases sign with
  | none =>
    refine head_digitRun run t fun c hc => h c ?_
    rw [signOrDigit, digit_eq_isDigit, hc, Bool.true_or, Bool.true_or]
  | plus => exact h '+' rfl
  | minus => exact h '-' rfl

/-- The sign that an integer is written with. -/
def integerSign (n : Int) : SignText := if n < 0 then .minus else .plus

theorem integer_eq (n : Int) :
    Rendering.integer n = (integerSign n).chars ++ Numeral.digitsOf n.natAbs := by
  unfold Rendering.integer integerSign
  split <;> rfl

theorem read_integerLiteral (n : Int) {t : List Char} (ht : Spaced t) :
    Rule.integerLiteral.read (Rendering.integer n ++ t) = .value n t := by
  have hd : digits.read (Numeral.digitsOf n.natAbs ++ t) = .value (Numeral.digitsOf n.natAbs) t :=
    readBy_digits (digitRun n.natAbs) (ht.head?_any rfl)
  have hsign : (expectAny ["+", "-"]).read (Rendering.integer n ++ t) =
      .value (if n < 0 then "-" else "+") (Numeral.digitsOf n.natAbs ++ t) := by
    unfold Rendering.integer
    split <;> rfl
  have hvalue : Numeral.applySign ((if n < 0 then "-" else "+") == "-") (n.natAbs : Int) = n := by
    split
    · have hminus : Numeral.applySign ("-" == "-") (n.natAbs : Int) = -(n.natAbs : Int) := rfl
      omega
    · have hplus : Numeral.applySign ("+" == "-") (n.natAbs : Int) = (n.natAbs : Int) := rfl
      omega
  rw [Rule.read_eq]
  simp only [Rule.body, integerLiteral, readBy_bind, hsign, hd, Reading.bind_value, readBy_pure,
    Numeral.positional_digitsOf, hvalue]

theorem writes_integer (n : Int) : Writes (Rendering.integer n) (.integer n) where
  tight t := by
    rw [integer_eq, List.append_assoc]
    exact tight_sign (integerSign n) (digitRun n.natAbs) t
  read t ht := by
    have hs := ht.spaced
    have hdouble : Rule.doubleLiteral.read (Rendering.integer n ++ t) = .mismatch := by
      rw [Rule.read_eq, integer_eq, List.append_assoc]
      exact readBy_doubleLiteral_number (integerSign n) (digitRun n.natAbs) (hs.head?_any rfl)
    have hnatural : Rule.naturalLiteral.read (Rendering.integer n ++ t) = .mismatch := by
      refine Rule.read_of_first .naturalLiteral ?_
      unfold Rendering.integer
      split <;> rfl
    refine read_expression_plain (plainStart_of_first ?_) ?_ ht.ends
    · rw [integer_eq, List.append_assoc]
      exact head_sign (integerSign n) (digitRun n.natAbs) t (not_contains (by decide))
    · rw [read_primitiveExpression, hdouble, hnatural, read_integerLiteral n hs]
      rfl

/-- The text of a finite double. -/
def finiteText (negative : Bool) (coefficient : Nat) (exponent : Int) : DoubleText where
  sign := if negative then .minus else .none
  whole := digitRun coefficient
  tail := .scaled
    { mark := 'e'
      mark_eq := .inl rfl
      sign := if exponent < 0 then .minus else .none
      run := digitRun exponent.natAbs }

theorem finiteText_chars (negative : Bool) (coefficient : Nat) (exponent : Int)
    {bounded : Decimal.InBounds coefficient exponent} :
    Rendering.double (@Decimal.finite negative coefficient exponent bounded) =
      (finiteText negative coefficient exponent).chars := by
  have hwrite : (Numeral.write exponent).toList =
      (if exponent < 0 then SignText.minus else .none).chars ++
        Numeral.digitsOf exponent.natAbs := by
    rw [Numeral.write, String.toList_ofList]
    split <;> rfl
  rw [Rendering.double, hwrite]
  cases negative <;> simp [finiteText, DoubleText.chars, DoubleTail.chars, ExponentText.chars,
    SignText.chars, digitRun]

theorem finiteText_value? (negative : Bool) (coefficient : Nat) (exponent : Int)
    {bounded : Decimal.InBounds coefficient exponent} :
    (finiteText negative coefficient exponent).value? =
      some (@Decimal.finite negative coefficient exponent bounded) := by
  have hsign : (finiteText negative coefficient exponent).sign.negative = negative := by
    cases negative <;> rfl
  have hpower : (finiteText negative coefficient exponent).tail.power = exponent := by
    simp only [finiteText, DoubleTail.power, ExponentText.value, digitRun,
      Numeral.positional_digitsOf]
    split
    · change -(exponent.natAbs : Int) = exponent
      omega
    · change (exponent.natAbs : Int) = exponent
      omega
  have hcoefficient : Numeral.positional 10
      ((finiteText negative coefficient exponent).whole.chars ++
        (finiteText negative coefficient exponent).tail.fraction) = coefficient := by
    simp only [finiteText, DoubleTail.fraction, digitRun, List.append_nil,
      Numeral.positional_digitsOf]
  have hfraction : (finiteText negative coefficient exponent).tail.fraction.length = 0 := rfl
  rw [DoubleText.value?, hsign, hpower, hcoefficient, hfraction]
  simp only [Int.natCast_zero, Int.sub_zero]
  exact dif_pos bounded

theorem writes_finite (negative : Bool) (coefficient : Nat) (exponent : Int)
    {bounded : Decimal.InBounds coefficient exponent} :
    Writes (Rendering.double (@Decimal.finite negative coefficient exponent bounded))
      (.double (@Decimal.finite negative coefficient exponent bounded)) where
  tight t := by
    rw [finiteText_chars, DoubleText.chars, List.append_assoc, List.append_assoc]
    exact tight_sign _ _ _
  read t ht := by
    refine read_expression_plain (plainStart_of_first ?_) ?_ ht.ends
    · rw [finiteText_chars, DoubleText.chars, List.append_assoc, List.append_assoc]
      exact head_sign _ _ _ (CharClass.not_contains (by decide))
    · have hread : Rule.doubleLiteral.read
          (Rendering.double (@Decimal.finite negative coefficient exponent bounded) ++ t) =
            .value (@Decimal.finite negative coefficient exponent bounded) t := by
        refine (Rule.read_eq _ _).trans ?_
        rw [finiteText_chars]
        refine (readBy_doubleLiteral _ (ht.spaced.head?_any rfl)).trans ?_
        rw [finiteText_value?]
      rw [read_primitiveExpression, hread]
      rfl

theorem writes_double {d : Decimal} (h : d.IsLiteral) :
    Writes (Rendering.double d) (.double d) := by
  cases d with
  | finite negative coefficient exponent => exact writes_finite negative coefficient exponent
  | infinity negative =>
    refine ⟨fun t => ?_, fun t ht => ?_⟩
    · cases negative <;> rfl
    · have hread : Rule.doubleLiteral.read (Rendering.double (.infinity negative) ++ t) =
          .value (.infinity negative) t := by
        refine (Rule.read_eq _ _).trans ?_
        obtain rfl | ⟨r, rfl⟩ := ht <;> cases negative <;> rfl
      refine read_expression_plain (plainStart_of_first ?_) ?_ ht.ends
      · cases negative <;> rfl
      · rw [read_primitiveExpression, hread]
        rfl
  | nan negative signaling payload =>
    obtain ⟨rfl, rfl, rfl⟩ := h
    refine ⟨fun t => rfl, fun t ht => ?_⟩
    have hread : Rule.doubleLiteral.read (Rendering.double (.nan false false 0) ++ t) =
        .value (.nan false false 0) t := by
      refine (Rule.read_eq _ _).trans ?_
      obtain rfl | ⟨r, rfl⟩ := ht <;> rfl
    refine read_expression_plain (plainStart_of_first rfl) ?_ ht.ends
    rw [read_primitiveExpression, hread]
    rfl

/-! ## Identifiers -/

theorem read_variableIndex (n : Nat) {t : List Char} (ht : Spaced t) :
    variableIndex.read (Rendering.word " @ " ++ (Numeral.digitsOf n ++ t)) = .value n t := by
  have hat : whitespace.read (Rendering.word " @ " ++ (Numeral.digitsOf n ++ t)) =
      .value () ('@' :: ' ' :: (Numeral.digitsOf n ++ t)) :=
    readBy_whitespace_space (s := '@' :: ' ' :: (Numeral.digitsOf n ++ t)) rfl
  have hexpect : (expect "@").read ('@' :: ' ' :: (Numeral.digitsOf n ++ t)) =
      .value () (' ' :: (Numeral.digitsOf n ++ t)) := rfl
  have hspace : whitespace.read (' ' :: (Numeral.digitsOf n ++ t)) =
      .value () (Numeral.digitsOf n ++ t) :=
    readBy_whitespace_space (tight_digit (digitRun n) t)
  have hdigits : (takeWhile1 digit "a variable index").read (Numeral.digitsOf n ++ t) =
      .value (Numeral.digitsOf n) t :=
    readBy_takeWhile1_run (digitRun n).ne_nil (digitRun n).all_digit (ht.head?_any rfl) _
  simp only [variableIndex, readBy_bind, hat, hexpect, hspace, hdigits, Reading.bind_value,
    readBy_pure, Numeral.positional_digitsOf]

theorem writes_variable {name : String} {index : Int} (hname : IsLabel name) (h : 0 ≤ index) :
    Writes (Rendering.indexed name index.toNat) (.variable name index) where
  tight t := rfl
  read t ht := by
    have hlabel : (call .nonreservedLabel).read
        (Rendering.label name ++ (Rendering.word " @ " ++ (Numeral.digitsOf index.toNat ++ t))) =
          .value name (Rendering.word " @ " ++ (Numeral.digitsOf index.toNat ++ t)) :=
      read_nonreservedLabel hname _
    have hidentifier : Rule.identifier.read
        (Rendering.label name ++ (Rendering.word " @ " ++ (Numeral.digitsOf index.toNat ++ t))) =
          .value (.variable name index) t := by
      rw [Rule.read_eq]
      simp only [Rule.body, identifier, readBy_bind, readBy_optional?, hlabel,
        read_variableIndex index.toNat ht.spaced, Reading.bind_value, Reading.orElse_value,
        readBy_pure, Option.getD_some, Int.toNat_of_nonneg h]
    have hmisses : ∀ rule : Rule, rule.first '\x60' = false → rule.read
        (Rendering.label name ++ (Rendering.word " @ " ++ (Numeral.digitsOf index.toNat ++ t))) =
          .mismatch := fun rule hr => rule.read_of_first hr
    rw [Rendering.indexed, List.append_assoc, List.append_assoc]
    refine read_expression_plain (plainStart_of_first rfl) ?_ ht.ends
    rw [Rendering.natural, read_primitiveExpression, hmisses .doubleLiteral rfl,
      hmisses .naturalLiteral rfl, hmisses .integerLiteral rfl, hmisses .textLiteral rfl,
      hmisses .recordExpression rfl, hmisses .unionType rfl, hmisses .listLiteral rfl,
      hidentifier]
    rfl

/-- A builtin is a word that no other form begins with. -/
theorem builtin_word {name : String} (h : name ∈ Vocabulary.builtins) :
    name.toList.all labelContinue = true ∧ name.toList.head?.any labelStart = true ∧
      name.toList ∉ ["Some".toList, "Infinity".toList, "NaN".toList] ∧
      name.toList.head?.any "./~ehmtλ\\ilf∀[".toList.contains = false := by
  revert name
  decide

theorem writes_builtin {name : String} (h : name ∈ Vocabulary.builtins) :
    Writes name.toList (.builtin name) := by
  obtain ⟨hcontinue, hstart, hne, hfirst⟩ := builtin_word h
  have hhead : ∀ t chars, (name.toList ++ t).head?.any chars = name.toList.head?.any chars := by
    intro t chars
    obtain ⟨c, rest, hc, -⟩ := head?_of_any hstart
    rw [hc]
    rfl
  have hstart' : ∀ t, (name.toList ++ t).head?.any labelStart = true := fun t =>
    (hhead t _).trans hstart
  refine ⟨fun t => Whitespace.tight_of_head
    (head?_any_disjoint (not_contains (by decide)) (hstart' t)), fun t ht => ?_⟩
  obtain ⟨hword, hbehind⟩ := wordOf_append hcontinue (ht.spaced.head?_any (by rfl))
  have hmisses : ∀ {text : List Char},
      text.all "./~ehmtλ\\ilf∀[".toList.contains = true →
      (name.toList ++ t).head?.any text.contains = false := fun htext =>
    head?_any_of_all htext ((hhead t _).trans hfirst)
  have hbuiltin : Vocabulary.isBuiltin name = true := List.contains_iff_mem.mpr h
  have hreserved : Vocabulary.isReserved name = true := by
    rw [Vocabulary.isReserved, hbuiltin, Bool.or_true]
  have hplain : PlainStart (name.toList ++ t) := by
    refine ⟨Rule.read_of_first .importClause (hmisses (by decide)), ⟨?_, ?_, ?_⟩,
      noLongerForm_of_first (hmisses (by decide))⟩
    · exact beginsWith_keyword "merge" (by decide) _ (hmisses (by decide : ['m'].all _ = true))
    · rw [Grammar.read, readBy_keyword_word "Some" (by decide), hword, if_neg]
      exact fun heq => hne (heq ▸ List.mem_cons_self)
    · exact beginsWith_keyword "toMap" (by decide) _ (hmisses (by decide : ['t'].all _ = true))
  refine read_expression_plain hplain ?_ ht.ends
  have hnodouble : wordOf (name.toList ++ t) ∉ ["Infinity".toList, "NaN".toList] := by
    rw [hword]
    exact fun hmem => hne (List.mem_cons_of_mem _ hmem)
  rw [read_primitiveExpression_word (hstart' t) hnodouble, read_identifier_reserved (hstart' t)
    (by rw [hword, String.ofList_toList]; exact hreserved)]
  refine (readBy_builtin_word (hstart' t)).trans ?_
  rw [hword, hbehind, String.ofList_toList, if_pos hbuiltin]

end DhallSyntax
