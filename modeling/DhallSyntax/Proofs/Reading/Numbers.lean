import DhallSyntax.Proofs.Number.DoubleText
import DhallSyntax.Proofs.Reading.Parts
import DhallSyntax.Proofs.Text.CharClass

/-!
How numbers are read. Main statements: `readBy_doubleLiteral`, the text of a double is read as its
decimal or ends the parse if that is out of bounds, and `doubleLiteral_abort`, nothing else ends a
parse there.
-/

namespace DhallSyntax

open Grammar CharClass

variable {rules : RuleReader}

theorem CharClass.digit_eq_isDigit (c : Char) : digit c = c.isDigit := by
  rw [Bool.eq_iff_iff, digit_iff, Char.isDigit_iff_toNat]
  rfl

/-- What may go on with a number. -/
def CharClass.numberContinue : CharClass := fun c => digit c || ".eE".toList.contains c

theorem head?_any_of_numberContinue {t : List Char} (h : t.head?.any numberContinue = false) :
    t.head?.any digit = false ∧ t.head?.any ".eE".toList.contains = false := by
  cases t with
  | nil => exact ⟨rfl, rfl⟩
  | cons c t => exact Bool.or_eq_false_iff.mp h

theorem DigitRun.all_digit (run : DigitRun) : ∀ c ∈ run.chars, digit c = true :=
  fun c hc => (digit_eq_isDigit c).trans (run.digits c hc)

/-- Digits are read up to what follows them. -/
theorem readBy_digits (run : DigitRun) {t : List Char} (ht : t.head?.any digit = false) :
    digits.readBy rules (run.chars ++ t) = .value run.chars t := by
  obtain ⟨htake, hdrop⟩ := takeWhile_append_stop run.all_digit ht
  have hne : run.chars.isEmpty = false := List.isEmpty_eq_false_iff.mpr run.ne_nil
  rw [digits, readBy_takeWhile1, htake, hdrop, hne, if_neg Bool.false_ne_true]

/-- A run of digits at the beginning of a text. -/
theorem digits_eq_value {s run t : List Char} (h : digits.readBy rules s = .value run t) :
    ∃ r : DigitRun, r.chars = run ∧ s = run ++ t := by
  rw [digits, readBy_takeWhile1] at h
  split at h
  · cases h
  · rename_i hne
    cases h
    refine ⟨⟨s.takeWhile digit, fun he => hne (he ▸ rfl), fun c hc => ?_⟩, rfl,
      List.takeWhile_append_dropWhile.symm⟩
    rw [← digit_eq_isDigit]
    exact List.all_eq_true.mp List.all_takeWhile c hc

theorem SignText.readBy_sign (sign : SignText) (run : DigitRun) (t : List Char) :
    Grammar.sign.readBy rules (sign.chars ++ (run.chars ++ t)) =
      .value sign.negative (run.chars ++ t) := by
  cases sign with
  | plus => rfl
  | minus => rfl
  | none =>
    obtain ⟨c, rest, hc, hd⟩ := run.cons
    obtain ⟨hplus, hminus⟩ := Numeral.digit_not_sign hd
    rw [hc, chars, List.nil_append, List.cons_append, Grammar.sign, readBy_bind,
      readBy_takeIf_cons]
    simp [hplus, hminus, negative]

theorem sign_eq_value {s t : List Char} {negative : Bool}
    (h : Grammar.sign.readBy rules s = .value negative t) :
    ∃ sign : SignText, sign.negative = negative ∧ s = sign.chars ++ t := by
  cases s with
  | nil => cases h; exact ⟨.none, rfl, rfl⟩
  | cons c s =>
    rw [Grammar.sign, readBy_bind, readBy_takeIf_cons] at h
    split at h
    · rename_i hc
      simp only [Bool.or_eq_true, beq_iff_eq] at hc
      obtain rfl | rfl := hc
      · cases h; exact ⟨.plus, rfl, rfl⟩
      · cases h; exact ⟨.minus, rfl, rfl⟩
    · cases h
      exact ⟨.none, rfl, rfl⟩

theorem ExponentText.readBy_exponent (e : ExponentText) {t : List Char}
    (ht : t.head?.any digit = false) :
    exponent.readBy rules (e.chars ++ t) = .value e.value t := by
  have hshape : e.chars ++ t = e.mark :: (e.sign.chars ++ (e.run.chars ++ t)) := by
    simp [chars]
  have hmark : (expectAny ["e", "E"]).readBy rules (e.chars ++ t) =
      .value (String.singleton e.mark) (e.sign.chars ++ (e.run.chars ++ t)) := by
    rw [hshape]
    obtain h | h := e.mark_eq
    · rw [h]; rfl
    · rw [h]; rfl
  simp only [exponent, readBy_bind, hmark, Reading.bind_value, e.sign.readBy_sign,
    readBy_digits e.run ht, readBy_pure]
  rfl

theorem exponent_eq_value {s t : List Char} {n : Int}
    (h : exponent.readBy rules s = .value n t) :
    ∃ e : ExponentText, e.value = n ∧ s = e.chars ++ t := by
  simp only [exponent, readBy_bind] at h
  obtain ⟨mark, u, hmark, h⟩ := Reading.bind_eq_value.mp h
  obtain ⟨negative, v, hsign, h⟩ := Reading.bind_eq_value.mp h
  obtain ⟨ds, w, hdigits, h⟩ := Reading.bind_eq_value.mp h
  cases h
  obtain ⟨sign, rfl, rfl⟩ := sign_eq_value hsign
  obtain ⟨run, rfl, rfl⟩ := digits_eq_value hdigits
  have hs : ∃ c, (c = 'e' ∨ c = 'E') ∧ s = c :: (sign.chars ++ (run.chars ++ t)) := by
    simp only [readBy_expectAny_cons, readBy_expectAny_nil] at hmark
    split at hmark
    · rename_i hp
      obtain ⟨rest, rfl⟩ := List.isPrefixOf_iff_prefix.mp hp
      cases hmark
      exact ⟨'e', .inl rfl, rfl⟩
    · split at hmark
      · rename_i hp
        obtain ⟨rest, rfl⟩ := List.isPrefixOf_iff_prefix.mp hp
        cases hmark
        exact ⟨'E', .inr rfl, rfl⟩
      · cases hmark
  obtain ⟨c, hc, rfl⟩ := hs
  exact ⟨⟨c, hc, sign, run⟩, rfl, by simp [ExponentText.chars]⟩

theorem exponent_misses {t : List Char} (h : t.head?.any ".eE".toList.contains = false) :
    exponent.readBy rules t = .mismatch := by
  cases t with
  | nil => rfl
  | cons c t =>
    have hc : c ≠ 'e' ∧ c ≠ 'E' := by
      constructor
      · rintro rfl
        cases h
      · rintro rfl
        cases h
    simp [exponent, readBy_expectAny_cons, List.isPrefixOf, hc.1.symm, hc.2.symm]

theorem point_misses {t : List Char} (h : t.head?.any ".eE".toList.contains = false) :
    (accept ".").readBy rules t = .value false t := by
  cases t with
  | nil => rfl
  | cons c t =>
    have hc : c ≠ '.' := by
      rintro rfl
      cases h
    simp [readBy_accept, List.isPrefixOf, hc.symm]

/-! ## Doubles -/

/-- What follows the digits of a double. -/
def doubleTail (negative : Bool) (whole : List Char) : Grammar Decimal := do
  if ← accept "." then
    let fraction ← digits
    decimal negative whole fraction ((← optional? exponent).getD 0)
  else
    decimal negative whole [] (← exponent)

/-- None of the words for doubles begins a number. -/
theorem specialDoubles_number (sign : SignText) (run : DigitRun) (t : List Char) :
    (specialDoubles.find? fun entry => entry.1.toList.isPrefixOf (sign.chars ++ (run.chars ++ t))) =
      none := by
  obtain ⟨c, rest, hc, hd⟩ := run.cons
  have hne : c ≠ '-' ∧ c ≠ 'I' ∧ c ≠ 'N' :=
    Numeral.forall_digit (P := fun c => c ≠ '-' ∧ c ≠ 'I' ∧ c ≠ 'N') (by decide) hd
  rw [hc]
  cases sign <;>
    simp [specialDoubles, SignText.chars, List.isPrefixOf, hne.1.symm, hne.2.1.symm, hne.2.2.symm]

theorem readBy_doubleLiteral_digits (sign : SignText) (run : DigitRun) {t : List Char}
    (ht : t.head?.any digit = false) :
    doubleLiteral.readBy rules (sign.chars ++ (run.chars ++ t)) =
      (doubleTail sign.negative run.chars).readBy rules t := by
  simp only [doubleLiteral, readBy_bind, readBy_look, Reading.bind_value,
    specialDoubles_number sign run t, sign.readBy_sign, readBy_digits run ht]
  rfl

/-- A number without a fraction and an exponent is no double. -/
theorem readBy_doubleLiteral_number (sign : SignText) (run : DigitRun) {t : List Char}
    (ht : t.head?.any numberContinue = false) :
    doubleLiteral.readBy rules (sign.chars ++ (run.chars ++ t)) = .mismatch := by
  obtain ⟨hdigit, hmark⟩ := head?_any_of_numberContinue ht
  rw [readBy_doubleLiteral_digits sign run hdigit]
  simp only [doubleTail, readBy_bind, point_misses hmark, Reading.bind_value, Bool.false_eq_true,
    if_false, exponent_misses hmark, Reading.bind_mismatch]

theorem readBy_decimal (negative : Bool) (whole fraction : List Char) (exponent : Int)
    (t : List Char) :
    (decimal negative whole fraction exponent).readBy rules t =
      match Decimal.ofParts? negative (Numeral.positional 10 (whole ++ fraction))
        (exponent - fraction.length) with
      | some value => .value value t
      | none => .abort .numberRange := by
  unfold decimal
  dsimp only
  cases Decimal.ofParts? negative (Numeral.positional 10 (whole ++ fraction))
    (exponent - fraction.length) with
  | none => rfl
  | some value => rfl

/-- The text of a double is read as its decimal, or ends the parse if that is out of bounds. -/
theorem readBy_doubleLiteral (d : DoubleText) {t : List Char}
    (ht : t.head?.any numberContinue = false) :
    doubleLiteral.readBy rules (d.chars ++ t) =
      match d.value? with
      | some value => .value value t
      | none => .abort .numberRange := by
  obtain ⟨hdigit, hmark⟩ := head?_any_of_numberContinue ht
  obtain ⟨sign, run, tail⟩ := d
  have hshape : DoubleText.chars ⟨sign, run, tail⟩ ++ t =
      sign.chars ++ (run.chars ++ (tail.chars ++ t)) := by
    simp [DoubleText.chars]
  have hhead : (tail.chars ++ t).head?.any digit = false := by
    cases tail with
    | point fraction exponent? => rfl
    | scaled e =>
      obtain h | h := e.mark_eq
      · simp only [DoubleTail.chars, ExponentText.chars, h]; rfl
      · simp only [DoubleTail.chars, ExponentText.chars, h]; rfl
  rw [hshape, readBy_doubleLiteral_digits sign run hhead]
  cases tail with
  | scaled e =>
    have hpoint : (accept ".").readBy rules (e.chars ++ t) = .value false (e.chars ++ t) := by
      obtain h | h := e.mark_eq
      · rw [ExponentText.chars, h]; rfl
      · rw [ExponentText.chars, h]; rfl
    simp only [doubleTail, DoubleTail.chars, readBy_bind, hpoint, Reading.bind_value,
      Bool.false_eq_true, if_false, e.readBy_exponent hdigit, readBy_decimal]
    rfl
  | point fraction exponent? =>
    have hpoint : (accept ".").readBy rules
        (DoubleTail.chars (.point fraction exponent?) ++ t) =
          .value true (fraction.chars ++ (exponent?.elim [] ExponentText.chars ++ t)) := by
      rw [DoubleTail.chars, List.cons_append, List.append_assoc]
      rfl
    have hbehind : (exponent?.elim [] ExponentText.chars ++ t).head?.any digit = false := by
      cases exponent? with
      | none => exact hdigit
      | some e =>
        obtain h | h := e.mark_eq
        · simp only [Option.elim_some, ExponentText.chars, h]; rfl
        · simp only [Option.elim_some, ExponentText.chars, h]; rfl
    have hexponent : (optional? exponent).readBy rules
        (exponent?.elim [] ExponentText.chars ++ t) =
          .value (exponent?.map ExponentText.value) t := by
      cases exponent? with
      | none =>
        rw [Option.elim_none, List.nil_append, readBy_optional?, exponent_misses hmark]
        rfl
      | some e =>
        rw [Option.elim_some, readBy_optional?, e.readBy_exponent hdigit]
        rfl
    simp only [doubleTail, readBy_bind, hpoint, Reading.bind_value, if_true,
      readBy_digits fraction hbehind, hexponent, readBy_decimal]
    cases exponent? <;> rfl

/-! ## Whatever a double is read from -/

theorem digits_ne_abort {s : List Char} {fault : Fault} :
    digits.readBy rules s ≠ .abort fault := by
  rw [digits, readBy_takeWhile1]
  split <;> exact nofun

theorem exponent_ne_abort {s : List Char} {fault : Fault} :
    exponent.readBy rules s ≠ .abort fault := by
  intro h
  simp only [exponent, readBy_bind] at h
  obtain h | ⟨mark, u, -, h⟩ := Reading.bind_eq_abort.mp h
  · simp only [readBy_expectAny_cons, readBy_expectAny_nil] at h
    split at h
    · cases h
    · split at h <;> cases h
  obtain h | ⟨negative, v, -, h⟩ := Reading.bind_eq_abort.mp h
  · cases u with
    | nil => cases h
    | cons c u =>
      rw [Grammar.sign, readBy_bind, readBy_takeIf_cons] at h
      split at h <;> cases h
  obtain h | ⟨ds, w, -, h⟩ := Reading.bind_eq_abort.mp h
  · exact digits_ne_abort h
  · cases h

theorem accept_eq_true {literal : String} {s t : List Char}
    (h : (accept literal).readBy rules s = .value true t) : s = literal.toList ++ t := by
  rw [readBy_accept] at h
  split at h
  · rename_i hp
    obtain ⟨rest, rfl⟩ := List.isPrefixOf_iff_prefix.mp hp
    cases h
    rw [List.drop_left]
  · cases h

theorem accept_eq_false {literal : String} {s t : List Char}
    (h : (accept literal).readBy rules s = .value false t) : t = s := by
  rw [readBy_accept] at h
  split at h
  · cases h
  · cases h
    rfl

/-- What the digits of a number go on with: nothing that makes it a double, or a text that does. -/
theorem doubleTail_cases (sign : SignText) (run : DigitRun) (s : List Char) :
    (doubleTail sign.negative run.chars).readBy rules s = .mismatch ∨
      ∃ tail t, s = tail.chars ++ t ∧
        (doubleTail sign.negative run.chars).readBy rules s =
          match DoubleText.value? ⟨sign, run, tail⟩ with
          | some value => .value value t
          | none => .abort .numberRange := by
  simp only [doubleTail, readBy_bind]
  cases hp : (accept ".").readBy rules s with
  | mismatch => rw [readBy_accept] at hp; split at hp <;> cases hp
  | abort fault => rw [readBy_accept] at hp; split at hp <;> cases hp
  | value point u =>
    rw [Reading.bind_value]
    cases point with
    | false =>
      obtain rfl := accept_eq_false hp
      simp only [Bool.false_eq_true, if_false, readBy_bind]
      cases he : exponent.readBy rules u with
      | mismatch => exact .inl rfl
      | abort fault => exact absurd he exponent_ne_abort
      | value n t =>
        obtain ⟨e, rfl, rfl⟩ := exponent_eq_value he
        refine .inr ⟨.scaled e, t, rfl, ?_⟩
        rw [Reading.bind_value, readBy_decimal]
        rfl
    | true =>
      obtain rfl := accept_eq_true hp
      simp only [if_true, readBy_bind]
      cases hd : digits.readBy rules u with
      | mismatch => exact .inl rfl
      | abort fault => exact absurd hd digits_ne_abort
      | value ds v =>
        obtain ⟨fraction, rfl, rfl⟩ := digits_eq_value hd
        rw [Reading.bind_value, readBy_optional?]
        cases he : exponent.readBy rules v with
        | abort fault => exact absurd he exponent_ne_abort
        | mismatch =>
          refine .inr ⟨.point fraction none, v, by simp [DoubleTail.chars], ?_⟩
          rw [Reading.bind_mismatch, Reading.orElse_mismatch, Reading.bind_value, readBy_decimal]
          rfl
        | value n t =>
          obtain ⟨e, rfl, rfl⟩ := exponent_eq_value he
          refine .inr ⟨.point fraction (some e), t, by simp [DoubleTail.chars], ?_⟩
          rw [Reading.bind_value, Reading.orElse_value, Reading.bind_value, readBy_decimal]
          rfl

/-- A double is one of the words, or the text of a double, which ends the parse if its decimal is
out of bounds. -/
theorem doubleLiteral_cases (s : List Char) :
    doubleLiteral.readBy rules s = .mismatch ∨
      (∃ entry ∈ specialDoubles, ∃ t, doubleLiteral.readBy rules s = .value entry.2 t) ∨
      ∃ (d : DoubleText) (t : List Char), s = d.chars ++ t ∧
        doubleLiteral.readBy rules s =
          match d.value? with
          | some value => .value value t
          | none => .abort .numberRange := by
  simp only [doubleLiteral, readBy_bind, readBy_look, Reading.bind_value]
  cases hf : specialDoubles.find? fun entry => entry.1.toList.isPrefixOf s with
  | some entry =>
    simp only [readBy_bind, readBy_keyword]
    split
    · exact .inr (.inl ⟨entry, List.mem_of_find?_eq_some hf, _, rfl⟩)
    · exact .inl rfl
  | none =>
    simp only [readBy_bind]
    cases hs : Grammar.sign.readBy rules s with
    | mismatch => exact .inl rfl
    | abort fault =>
      cases s with
      | nil => cases hs
      | cons c s =>
        rw [Grammar.sign, readBy_bind, readBy_takeIf_cons] at hs
        split at hs <;> cases hs
    | value negative u =>
      obtain ⟨sign, rfl, rfl⟩ := sign_eq_value hs
      rw [Reading.bind_value]
      cases hd : digits.readBy rules u with
      | mismatch => exact .inl rfl
      | abort fault => exact absurd hd digits_ne_abort
      | value ds v =>
        obtain ⟨run, rfl, rfl⟩ := digits_eq_value hd
        rw [Reading.bind_value]
        obtain h | ⟨tail, t, rfl, h⟩ := @doubleTail_cases rules sign run v
        · exact .inl h
        · exact .inr (.inr ⟨⟨sign, run, tail⟩, t, by simp [DoubleText.chars], h⟩)

/-! ## Texts that do not mismatch -/

theorem readBy_digits_run (run : DigitRun) (t : List Char) :
    ∃ ds u, digits.readBy rules (run.chars ++ t) = .value ds u := by
  obtain ⟨c, rest, hc, -⟩ := run.cons
  have hdigit := run.all_digit c (hc ▸ List.mem_cons_self)
  rw [digits, readBy_takeWhile1, hc, List.cons_append, List.takeWhile_cons_of_pos hdigit]
  exact ⟨_, _, rfl⟩

/-- Whatever follows the text of an exponent, one is read there. -/
theorem readBy_exponent_text (e : ExponentText) (t : List Char) :
    ∃ n u, exponent.readBy rules (e.chars ++ t) = .value n u := by
  obtain ⟨ds, u, hdigits⟩ := @readBy_digits_run rules e.run t
  have hmark : ∃ mark, (expectAny ["e", "E"]).readBy rules (e.chars ++ t) =
      .value mark (e.sign.chars ++ (e.run.chars ++ t)) := by
    rw [ExponentText.chars, List.cons_append, List.append_assoc]
    obtain he | he := e.mark_eq
    · exact ⟨"e", by rw [he]; rfl⟩
    · exact ⟨"E", by rw [he]; rfl⟩
  obtain ⟨mark, hmark⟩ := hmark
  refine ⟨Numeral.applySign e.sign.negative (Numeral.positional 10 ds), u, ?_⟩
  simp only [exponent, readBy_bind, hmark, Reading.bind_value, e.sign.readBy_sign e.run t, hdigits,
    readBy_pure]

/-- Whatever follows the text that makes a double of digits, they are the digits of one. -/
theorem doubleTail_ne_mismatch (negative : Bool) (whole : List Char) (tail : DoubleTail)
    (t : List Char) : (doubleTail negative whole).readBy rules (tail.chars ++ t) ≠ .mismatch := by
  have hdecimal : ∀ fraction n u,
      (decimal negative whole fraction n).readBy rules u ≠ .mismatch := by
    intro fraction n u h
    rw [readBy_decimal] at h
    split at h <;> cases h
  cases tail with
  | point fraction exponent? =>
    have hpoint : ∀ s, (accept ".").readBy rules ('.' :: s) = .value true s := fun _ => rfl
    have hchars : (DoubleTail.point fraction exponent?).chars ++ t =
        '.' :: (fraction.chars ++ (exponent?.elim [] ExponentText.chars ++ t)) := by
      simp [DoubleTail.chars]
    obtain ⟨ds, u, hdigits⟩ :=
      @readBy_digits_run rules fraction (exponent?.elim [] ExponentText.chars ++ t)
    rw [hchars]
    simp only [doubleTail, readBy_bind, hpoint, Reading.bind_value, if_true, hdigits,
      readBy_optional?]
    cases he : exponent.readBy rules u with
    | value n v => exact hdecimal _ _ _
    | mismatch => exact hdecimal _ _ _
    | abort fault => exact absurd he exponent_ne_abort
  | scaled e =>
    obtain ⟨n, u, hexponent⟩ := @readBy_exponent_text rules e t
    have hpoint : (accept ".").readBy rules (e.chars ++ t) = .value false (e.chars ++ t) := by
      rw [ExponentText.chars, List.cons_append]
      obtain he | he := e.mark_eq <;> rw [he] <;> rfl
    simp only [doubleTail, DoubleTail.chars, readBy_bind, hpoint, Reading.bind_value,
      Bool.false_eq_true, if_false, hexponent]
    exact hdecimal _ _ _

end DhallSyntax
